import SimplexBasis.Sparse.Singletons

/-!
# Elimination

One pivot in the active submatrix. With multipliers `l` for the other rows of the pivot column and
values `u` for the other columns of the pivot row, every entry at such a row and column is lowered
by `l * u`. Entries that do not exceed the zero tolerance are dropped.
-/

namespace SimplexBasis

/-- A column of the active submatrix in the middle of its update. -/
structure ColumnUpdate (α : Type) where
  /-- The entries kept so far, the last one first. -/
  kept : List (Nat × α)
  /-- Which multipliers have met an entry. -/
  met : Array Bool
  largest : α
  flops : Nat

namespace ColumnUpdate

variable {α : Type} [Scalar α]

def keep (c : ColumnUpdate α) (i : Nat) (x : α) : ColumnUpdate α :=
  { c with kept := (i, x) :: c.kept, largest := Scalar.max c.largest (Scalar.abs x) }

/-- Count an operation and keep its result if it exceeds the tolerance. -/
def compute (c : ColumnUpdate α) (tolerance : α) (i : Nat) (x : α) : ColumnUpdate α :=
  let c := { c with flops := c.flops + 1 }
  if tolerance < Scalar.abs x then c.keep i x else c

/-- Update an old entry. The pivot row is left out. -/
def updateEntry (slot : Array (Option Nat)) (multipliers : Array (Nat × α)) (pivotRow : Nat) (u : α)
    (tolerance : α) (c : ColumnUpdate α) : Nat × α → Checked (ColumnUpdate α)
  | (i, x) => do
    if i = pivotRow then return c
    match ← entry slot i with
    | none => return c.keep i x
    | some q =>
      let (_, l) ← entry multipliers q
      let c := { c with met := c.met.setIfInBounds q true }
      return c.compute tolerance i (x - l * u)

/-- Fill in the entry of a multiplier that has met none. -/
def fillEntry (multipliers : Array (Nat × α)) (u : α) (tolerance : α) (c : ColumnUpdate α)
    (q : Nat) : Checked (ColumnUpdate α) := do
  if c.met.getD q false then return c
  let (i, l) ← entry multipliers q
  return c.compute tolerance i (-l * u)

/-- The column with entries `old` after the pivot, where `u` is its value in the pivot row. -/
def run (slot : Array (Option Nat)) (multipliers : Array (Nat × α)) (pivotRow : Nat) (u : α)
    (tolerance : α) (old : List (Nat × α)) : Checked (ColumnUpdate α) := do
  let blank := ⟨[], Array.replicate multipliers.size false, 0, 0⟩
  let updated ← old.foldlM (updateEntry slot multipliers pivotRow u tolerance) blank
  (List.range multipliers.size).foldlM (fillEntry multipliers u tolerance) updated

def entries (c : ColumnUpdate α) : List (Nat × α) := c.kept.reverse

end ColumnUpdate

namespace SparseFactorization

variable {α : Type} [Scalar α]

def columnUpdate (s : SparseFactorization α) (multipliers : Array (Nat × α)) (pivotRow : Nat) :
    Nat × α → Checked (Nat × ColumnUpdate α)
  | (j, u) => do
    let old ← s.active.cols.line j
    return (j, ← ColumnUpdate.run s.workspace.slot multipliers pivotRow u s.options.zeroTolerance old)

/-- Write the update of column `j`. `kept` gathers, for each multiplier, the columns that hold its
row afterwards. -/
def writeColumn (kept : Array (Array Nat)) :
    Nat × ColumnUpdate α → Action (SparseFactorization α) (Array (Array Nat))
  | (j, update) => do
    let s ← get
    let spare := s.options.spare
    let slot := s.workspace.slot
    let entries := update.entries
    let kept ← entries.foldlM (fun kept (i, _) => do
      match ← (entry slot i : Checked (Option Nat)) with
      | some q => return kept.modify q (·.push j)
      | none => return kept) kept
    onActive do
      let old ← (← get).cols.length j
      Active.onCols (LineFile.setLine j entries spare)
      Active.recount old entries.length
      Active.setColMax j update.largest
      Active.onColCounts (CountLists.moveTo j entries.length)
    updateCounters fun c => { c with factorFlops := c.factorFlops + update.flops }
    return kept

/-- The pattern of the row of multiplier `q`: the columns that are not marked, and behind them the
marked ones that hold the row after the pivot. -/
def rowPattern (s : SparseFactorization α) (kept : Array (Array Nat)) :
    (Nat × α) × Nat → Checked (Nat × List Nat)
  | ((i, _), q) => do
    let old ← (← s.active.rows.line i).filterM fun j =>
      return (← entry s.workspace.marked j) != s.workspace.marker
    return (i, old ++ (← entry kept q).toList)

def writeRow : Nat × List Nat → Action (SparseFactorization α) Unit
  | (i, pattern) => do
    let spare := (← get).options.spare
    onActive do
      Active.onRows (LineFile.setLine i pattern spare)
      Active.onRowCounts (CountLists.moveTo i pattern.length)

/-- Update the columns of the pivot row and the rows of the pivot column. All columns are read
before the first one is written, and so are all rows. -/
def eliminate (r c : Nat) (multipliers : List (Nat × α)) (upperRow : List (Nat × α)) :
    Action (SparseFactorization α) Unit := do
  let s ← get
  let updates ← (upperRow.mapM (s.columnUpdate multipliers.toArray r) : Checked _)
  updateWorkspace Workspace.nextMarker
  (c :: upperRow.map Prod.fst).forM mark
  let kept ← updates.foldlM writeColumn (Array.replicate multipliers.length #[])
  let s ← get
  let patterns ← (multipliers.zipIdx.mapM (s.rowPattern kept) : Checked _)
  patterns.forM writeRow

/-- Pivot on row `r` and column `c`, both of which have other entries. -/
def pivotGeneral (r c : Nat) : Action (SparseFactorization α) Unit := do
  let a := (← get).active
  let some pivot := (← a.value? r c) | Action.breach .inconsistent
  let multipliers := ((← a.cols.line c).filter (·.1 != r)).map fun (i, x) => (i, x / pivot)
  let upperRow ← ((← a.rows.line r).filter (· != c)).mapM fun j =>
    return (j, (← (a.value? r j : Checked (Option α))).getD 0)
  checkLower multipliers.length
  checkUpper upperRow.length
  multipliers.zipIdx.forM fun ((i, _), q) => setSlot i (some q)
  let outcome ← Action.attempt (eliminate r c multipliers upperRow)
  multipliers.forM fun (i, _) => setSlot i none
  match outcome with
  | .error e => throw e
  | .ok _ => pure ()
  updateFactors fun f => multipliers.foldl (fun f (i, l) => f.pushLower i l) f
  updateFactors fun f => upperRow.foldl (fun f (j, u) => f.pushUpper j u) f
  onActive do
    Active.recount (← (← get).cols.length c) 0
    Active.drop r c
  closeStage r c pivot

def pivotOn (r c : Nat) : Action (SparseFactorization α) Unit := do
  let a := (← get).active
  if (← a.cols.length c) = 1 then
    let _ ← pivotColumnSingleton r c
  else if (← a.rows.length r) = 1 then
    let _ ← pivotRowSingleton r c
  else pivotGeneral r c

end SparseFactorization

end SimplexBasis
