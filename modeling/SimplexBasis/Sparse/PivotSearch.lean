import SimplexBasis.Sparse.State

/-!
# Pivot search

The search for a pivot with small Markowitz cost, the product of the other entries in its row and in
its column. A pivot is eligible if it is nonzero, has the absolute tolerance in magnitude and the
relative tolerance as share of its column's maximum. Columns and rows are searched in the order of
their counts, and the search ends early once enough of them have been searched or nothing cheaper
can follow. A row whose cheap entries are all ineligible is set aside: it moves to the last list and
is not searched again until it changes.
-/

namespace SimplexBasis

structure Candidate where
  row : Nat
  col : Nat
  /-- Its Markowitz cost. -/
  cost : Nat
  deriving DecidableEq, Repr

structure PivotSearch where
  best : Option Candidate
  searched : Nat
  finished : Bool

/-- What a search looks for. -/
structure SearchRule (α : Type) where
  /-- Least magnitude of a pivot. -/
  absoluteTolerance : α
  /-- Least share of a pivot in the maximum of its column. -/
  relativeTolerance : α
  /-- The number of rows and columns after which any pivot is good enough. -/
  maxSearch : Nat
  searchRows : Bool

namespace PivotSearch

variable {α : Type} [Scalar α]

def start : PivotSearch := ⟨none, 0, false⟩

def improves (p : PivotSearch) (cost : Nat) : Bool :=
  match p.best with
  | none => true
  | some c => cost < c.cost

/-- A cheaper pivot found; the search ends if its cost is within `bound`. -/
def accept (p : PivotSearch) (c : Candidate) (bound : Nat) (early : Bool) : PivotSearch :=
  { p with best := some c, finished := early && c.cost ≤ bound }

def countLine (rule : SearchRule α) (p : PivotSearch) : PivotSearch :=
  let searched := p.searched + 1
  { p with searched := searched, finished := rule.maxSearch ≤ searched && p.best.isSome }

/-- The cost of an entry in a line with `count` entries, when its other line has `crossing`. -/
def costOf (count crossing : Nat) : Nat := (count - 1) * (crossing - 1)

/-! ### Columns -/

def scanColumnEntries (rule : SearchRule α) (a : Active α) (count j : Nat) (tolerance : α) :
    List (Nat × α) → PivotSearch → Checked PivotSearch
  | [], p => .ok p
  | (i, x) :: rest, p => do
    if Scalar.abs x < tolerance then scanColumnEntries rule a count j tolerance rest p
    else
      let cost := costOf count (← a.rows.length i)
      if p.improves cost then
        let p := p.accept ⟨i, j, cost⟩ ((count - 1) * (count - 1)) rule.searchRows
        if p.finished then return p
        scanColumnEntries rule a count j tolerance rest p
      else scanColumnEntries rule a count j tolerance rest p

/-- Search column `j`, which has `count` entries. A column without an entry of the absolute
tolerance is passed over. -/
def scanColumn (rule : SearchRule α) (a : Active α) (count j : Nat) (p : PivotSearch) :
    Checked PivotSearch := do
  let largest ← entry a.colMax j
  if largest == 0 || largest < rule.absoluteTolerance then return p
  let tolerance := Scalar.max rule.absoluteTolerance (rule.relativeTolerance * largest)
  let p ← scanColumnEntries rule a count j tolerance (← a.cols.line j) p
  return if p.finished then p else p.countLine rule

/-- Search the columns with `count` entries from one of them on. -/
def scanColumns (rule : SearchRule α) (a : Active α) (count : Nat) :
    Nat → Option Nat → PivotSearch → Checked PivotSearch
  | _, none, p => .ok p
  | 0, some _, _ => .error .unbounded
  | fuel + 1, some j, p => do
    let next ← a.colCounts.following j
    let p ← scanColumn rule a count j p
    if p.finished then return p
    scanColumns rule a count fuel next p

/-! ### Rows -/

/-- A row in the middle of its search. -/
structure RowScan where
  search : PivotSearch
  /-- Whether an entry would have been cheaper than all pivots before it. -/
  cheap : Bool
  /-- Whether an eligible one was among them. -/
  found : Bool

def eligible (rule : SearchRule α) (a : Active α) (i j : Nat) : Checked Bool := do
  let largest ← entry a.colMax j
  if largest == 0 || largest < rule.absoluteTolerance then return false
  let x := ((← a.value? i j).map Scalar.abs).getD 0
  return decide (rule.absoluteTolerance ≤ x) && decide (rule.relativeTolerance * largest ≤ x)

def scanRowEntries (rule : SearchRule α) (a : Active α) (count i : Nat) :
    List Nat → RowScan → Checked RowScan
  | [], r => .ok r
  | j :: rest, r => do
    let cost := costOf count (← a.cols.length j)
    if r.search.improves cost then
      let r := { r with cheap := true }
      if ← eligible rule a i j then
        let p := r.search.accept ⟨i, j, cost⟩ (count * (count - 1)) true
        let r := { r with search := p, found := true }
        if p.finished then return r
        scanRowEntries rule a count i rest r
      else scanRowEntries rule a count i rest r
    else scanRowEntries rule a count i rest r

/-- Search row `i`, which has `count` entries, and set it aside if its cheap entries are all
ineligible. -/
def scanRow (rule : SearchRule α) (rejected count i : Nat) (p : PivotSearch) :
    Action (Active α) PivotSearch := do
  let a ← get
  let r ← scanRowEntries rule a count i (← a.rows.line i) ⟨p, false, false⟩
  if r.search.finished then return r.search
  if r.cheap && !r.found then
    Active.onRowCounts (CountLists.moveTo i rejected)
    return r.search
  else return r.search.countLine rule

def scanRows (rule : SearchRule α) (rejected count : Nat) :
    Nat → Option Nat → PivotSearch → Action (Active α) PivotSearch
  | _, none, p => pure p
  | 0, some _, _ => Action.breach .unbounded
  | fuel + 1, some i, p => do
    let next ← (← get).rowCounts.following i
    let p ← scanRow rule rejected count i p
    if p.finished then return p
    scanRows rule rejected count fuel next p

/-! ### The search -/

/-- Search columns and rows with `count` entries, and those with more, for `remaining` counts. -/
def scanCounts (rule : SearchRule α) (m : Nat) :
    Nat → Nat → PivotSearch → Action (Active α) PivotSearch
  | 0, _, p => pure p
  | remaining + 1, count, p => do
    let a ← get
    let p ← scanColumns rule a count m (← a.colCounts.first count) p
    if p.finished then return p
    if rule.searchRows then
      let p ← scanRows rule (m + 1) count m (← (← get).rowCounts.first count) p
      if p.finished then return p
      scanCounts rule m remaining (count + 1) p
    else scanCounts rule m remaining (count + 1) p

/-- The least count, at most `m`, of a column or, if they are searched, of a row; `m + 1` if there
is none. -/
def leastCount (rule : SearchRule α) (m : Nat) : Action (Active α) Nat := do
  let cols ← Active.onColCounts CountLists.leastNonempty
  let rows ← if rule.searchRows then Active.onRowCounts CountLists.leastNonempty else pure none
  let within (count : Option Nat) : Nat :=
    match count with
    | some c => if c ≤ m then c else m + 1
    | none => m + 1
  return min (within cols) (within rows)

end PivotSearch

namespace SparseFactorization

variable {α : Type} [Scalar α]

def searchRule (s : SparseFactorization α) : SearchRule α where
  absoluteTolerance := s.absoluteTolerance
  relativeTolerance := s.relativeTolerance
  maxSearch := max s.options.maxSearch 1
  searchRows := s.options.searchRows

/-- Search for a pivot. Answers its row and column, or nothing if the active submatrix has no entry,
or `nearSingular` if none of its entries is eligible. -/
def searchPivot : Action (SparseFactorization α) (Except Status (Option (Nat × Nat))) := do
  let s ← get
  let m := s.dimension
  let rule := s.searchRule
  let least ← onActive (PivotSearch.leastCount rule m)
  let p ← onActive (PivotSearch.scanCounts rule m (m + 1 - least) least .start)
  updateCounters fun c => { c with searched := c.searched + p.searched }
  match p.best with
  | some c => return .ok (some (c.row, c.col))
  | none =>
    if 0 < (← get).active.nonzeros then return .error .nearSingular else return .ok none

/-- Return the rows set aside to the lists of their counts, over at most so many of them. -/
def restoreFrom : Nat → Action (SparseFactorization α) Unit
  | 0 => Action.breach .unbounded
  | fuel + 1 => do
    let s ← get
    match ← s.active.rowCounts.first (s.dimension + 1) with
    | none => pure ()
    | some i =>
      let length ← s.active.rows.length i
      onActive (Active.onRowCounts (CountLists.moveTo i length))
      restoreFrom fuel

def restoreRejected : Action (SparseFactorization α) Unit := do
  restoreFrom ((← get).dimension + 1)

/-- Search once more with the absolute tolerance lowered to the zero tolerance and the relative
tolerance to the relaxed one. -/
def relaxedSearch : Action (SparseFactorization α) (Option (Nat × Nat)) := do
  restoreRejected
  let s ← get
  let absolute := s.absoluteTolerance
  let relative := s.relativeTolerance
  let options := s.options
  modify fun s => { s with
    absoluteTolerance := options.zeroTolerance
    relativeTolerance := Scalar.min options.relaxedPivotTolerance relative }
  let found ← searchPivot
  modify fun s => { s with absoluteTolerance := absolute, relativeTolerance := relative }
  match found with
  | .ok (some pivot) =>
    updateCounters fun c => { c with relaxed := c.relaxed + 1 }
    let stage := (← get).rank
    log .debug s!"relaxed pivot tolerance at stage {stage}"
    return some pivot
  | _ =>
    restoreRejected
    return none

end SparseFactorization

end SimplexBasis
