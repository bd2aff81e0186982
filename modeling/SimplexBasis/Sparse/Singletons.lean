import SimplexBasis.Sparse.State

/-!
# Singletons

Pivots that cost no elimination. A column with one entry puts the rest of its row into the upper
factor and nothing into the lower one; a row with one entry puts the rest of its column, divided by
the pivot, into the lower factor and nothing into the upper one. Removing a singleton may leave
another one of the same kind, which is taken next; it never leaves one of the other kind, so that
one cascade of each kind is enough.
-/

namespace SimplexBasis.SparseFactorization

variable {α : Type} [Scalar α]

/-- Move the entry of row `i` in column `j` to the upper factor. `stack` gains the column if one
entry is left in it. -/
def moveToUpper (i : Nat) (stack : List Nat) (j : Nat) :
    Action (SparseFactorization α) (List Nat) := do
  let (x, length) ← onActive (Active.removeFromColumn i j)
  updateFactors fun f => f.pushUpper j x
  return if length = 1 then j :: stack else stack

/-- Pivot on row `i` and column `j`, which has no other entry. Answers the columns of which one
entry is left, the last one first. -/
def pivotColumnSingleton (i j : Nat) : Action (SparseFactorization α) (List Nat) := do
  let [(row, x)] := (← (← get).active.cols.line j) | Action.breach .inconsistent
  Action.require (row == i) .inconsistent
  let line ← (← get).active.rows.line i
  checkUpper (Word.sub line.length 1)
  let stack ← (line.filter (· != j)).foldlM (moveToUpper i) []
  onActive (Active.drop i j)
  onActive (Active.recount 1 0)
  closeStage i j x
  return stack

/-- Move an entry of column `j`, divided by the pivot, to the lower factor. `stack` gains the row if
one entry is left in it. -/
def moveToLower (j : Nat) (pivot : α) (stack : List Nat) :
    Nat × α → Action (SparseFactorization α) (List Nat)
  | (i, x) => do
    updateFactors fun f => f.pushLower i (x / pivot)
    let length ← onActive (Active.removeFromRow i j)
    return if length = 1 then i :: stack else stack

/-- Pivot on column `j` and row `i`, which has no other entry. Answers the rows of which one entry
is left, the last one first. -/
def pivotRowSingleton (i j : Nat) : Action (SparseFactorization α) (List Nat) := do
  Action.require ((← (← get).active.rows.length i) == 1) .inconsistent
  let some pivot := (← (← get).active.value? i j) | Action.breach .inconsistent
  let line ← (← get).active.cols.line j
  checkLower (Word.sub line.length 1)
  let stack ← (line.filter (·.1 != i)).foldlM (moveToLower j pivot) []
  updateCounters fun c => { c with factorFlops := c.factorFlops + (line.length - 1) }
  onActive (Active.drop i j)
  onActive (Active.recount 1 0)
  closeStage i j pivot
  return stack

def isPivoted (stages : Array (Option Nat)) (i : Nat) : Checked Bool :=
  return (← entry stages i).isSome

def countSingleton : Action (SparseFactorization α) Unit :=
  updateCounters fun c => { c with singletons := c.singletons + 1 }

/-- Pivot on the columns of the stack that are still singletons and not too small, and on those that
become singletons, the last one first. -/
def columnCascade : Nat → List Nat → Action (SparseFactorization α) Unit
  | _, [] => pure ()
  | 0, _ :: _ => Action.breach .unbounded
  | fuel + 1, j :: stack => do
    let s ← get
    if ← isPivoted s.factors.stageOfCol j then columnCascade fuel stack
    else
      match ← s.active.cols.line j with
      | [(i, x)] =>
        if Scalar.abs x < s.absoluteTolerance then columnCascade fuel stack
        else
          let fresh ← pivotColumnSingleton i j
          countSingleton
          columnCascade fuel (fresh ++ stack)
      | _ => columnCascade fuel stack

def rowCascade : Nat → List Nat → Action (SparseFactorization α) Unit
  | _, [] => pure ()
  | 0, _ :: _ => Action.breach .unbounded
  | fuel + 1, i :: stack => do
    let s ← get
    if ← isPivoted s.factors.stageOfRow i then rowCascade fuel stack
    else
      match ← s.active.rows.line i with
      | [j] =>
        let x := (← s.active.value? i j).getD 0
        if Scalar.abs x < s.absoluteTolerance then rowCascade fuel stack
        else
          let fresh ← pivotRowSingleton i j
          countSingleton
          rowCascade fuel (fresh ++ stack)
      | _ => rowCascade fuel stack

/-- Pivot on column singletons. Each entry that is removed adds at most one column to the stack,
which bounds the number of steps. -/
def columnSingletons : Action (SparseFactorization α) Unit := do
  let s ← get
  let singles ← s.active.colCounts.toList 1
  columnCascade (singles.length + (← s.active.cols.count)) singles.reverse

def rowSingletons : Action (SparseFactorization α) Unit := do
  let s ← get
  let singles ← s.active.rowCounts.toList 1
  rowCascade (singles.length + (← s.active.rows.count)) singles.reverse

/-- Pivot on singletons of both kinds, in the order of the singleton bias. -/
def singletons : Action (SparseFactorization α) Unit := do
  if 0 ≤ (← get).options.singletonBias then
    columnSingletons
    rowSingletons
  else
    rowSingletons
    columnSingletons

end SimplexBasis.SparseFactorization
