import SimplexBasis.Journal
import SimplexBasis.Options
import SimplexBasis.Sparse.Active
import SimplexBasis.Sparse.Factors

/-!
# State of the sparse factorization

The active submatrix, the factors and the etas of column replacements, with the areas they may fill
and the counters that a caller can read. The operations on the state are in the modules beside this
one: loading, factorizing, solving and replacing columns.
-/

namespace SimplexBasis

inductive Phase where
  | idle
  | loaded
  | factorized
  deriving DecidableEq, Repr

/-- How many entries the areas hold. -/
structure Capacity where
  lower : Nat
  upper : Nat
  /-- Entries of the row file and of the column file. -/
  files : Nat
  etas : Nat
  deriving DecidableEq, Repr

/-- Column replacements. Eta `e` subtracts its line, times the entry at its row, and then multiplies
that entry. -/
structure Etas (α : Type) where
  /-- The entries besides the pivot, by rows. -/
  lines : Compressed α
  rows : Array Nat
  inverses : Array α

/-- Arrays used during pivots and solves. -/
structure Workspace (α : Type) where
  /-- Place of each row in a list of rows, while such a list is in use. -/
  slot : Array (Option Nat)
  /-- Values by stage, zero between solves. -/
  values : Array α
  /-- Marks of columns or stages. What holds the current marker is marked. -/
  marked : Array Nat
  marker : Nat
  /-- Search stack at the front, search result at the back. -/
  pattern : Array Nat
  /-- Where the search goes on at each place of the stack. -/
  resume : Array Nat

/-- What is counted from the loading of a basis on. -/
structure Counters (α : Type) where
  basisCount : Nat
  /-- Columns pivoted as slacks. -/
  slacks : Nat
  singletons : Nat
  /-- Rows and columns searched for a pivot. -/
  searched : Nat
  /-- Pivots accepted with the relaxed tolerances. -/
  relaxed : Nat
  /-- Dimension of the block that was factorized densely. -/
  denseSize : Nat
  factorFlops : Nat
  lowerCount : Nat
  upperCount : Nat
  lowerFlops : Nat
  upperFlops : Nat
  etaFlops : Nat
  /-- Solves on the reach of the right-hand side. -/
  sparseSolves : Nat
  pivotRange : PivotRange α

/-- A factorization of a sparse basis. -/
structure SparseFactorization (α : Type) where
  options : Options α
  dimension : Nat
  /-- Scale of the area estimates. -/
  areaFactor : α
  /-- Wanted size of the lower factor; zero for an estimate. -/
  lowerHint : Nat
  upperHint : Nat
  capacity : Capacity
  active : Active α
  factors : Factors α
  etas : Etas α
  workspace : Workspace α
  phase : Phase
  /-- Why the loaded basis cannot be factorized, if so. -/
  pending : Option Status
  /-- Least magnitude of a pivot. -/
  absoluteTolerance : α
  /-- Least share of a pivot in the maximum of its column. -/
  relativeTolerance : α
  /-- Right-hand sides with at most so many nonzeros are solved on their reach. -/
  sparseThreshold : Nat
  factorCount : Nat
  counters : Counters α
  logTarget : String
  journal : Array Record

variable {α β : Type} [Scalar α]

def Etas.empty : Etas α := ⟨.empty, #[], #[]⟩

def Workspace.blank (m : Nat) : Workspace α where
  slot := Array.replicate m none
  values := Array.replicate m 0
  marked := Array.replicate m 0
  marker := 0
  pattern := Array.replicate m 0
  resume := Array.replicate m 0

def Counters.zero : Counters α := ⟨0, 0, 0, 0, 0, 0, 0, 0, 0, 0, 0, 0, 0, .empty⟩

namespace SparseFactorization

def new (options : Options α) : SparseFactorization α where
  options := options
  dimension := 0
  areaFactor := Scalar.max options.initialAreaFactor Scalar.minPositive
  lowerHint := 0
  upperHint := 0
  capacity := ⟨0, 0, 0, 0⟩
  active := .void
  factors := .blank 0
  etas := .empty
  workspace := .blank 0
  phase := .idle
  pending := none
  absoluteTolerance := 0
  relativeTolerance := 0
  sparseThreshold := 0
  factorCount := 0
  counters := .zero
  logTarget := defaultTarget
  journal := #[]

/-! ### Observations -/

def rank (s : SparseFactorization α) : Nat := s.factors.rank

def pivots (s : SparseFactorization α) : Nat := s.etas.rows.size

def compressions (s : SparseFactorization α) : Nat :=
  s.active.cols.compressions + s.active.rows.compressions

/-! ### Components -/

def onActive (act : Action (Active α) β) : Action (SparseFactorization α) β :=
  Part.run ⟨(·.active), fun f s => { s with active := f s.active }⟩ .void act

def updateFactors (f : Factors α → Factors α) : Action (SparseFactorization α) Unit :=
  modify fun s => { s with factors := f s.factors }

def updateWorkspace (f : Workspace α → Workspace α) : Action (SparseFactorization α) Unit :=
  modify fun s => { s with workspace := f s.workspace }

def updateCounters (f : Counters α → Counters α) : Action (SparseFactorization α) Unit :=
  modify fun s => { s with counters := f s.counters }

def setSlot (i : Nat) (place : Option Nat) : Action (SparseFactorization α) Unit := do
  Action.require (i < (← get).workspace.slot.size) .indexOutOfRange
  updateWorkspace fun w => { w with slot := w.slot.setIfInBounds i place }

def mark (j : Nat) : Action (SparseFactorization α) Unit := do
  Action.require (j < (← get).workspace.marked.size) .indexOutOfRange
  updateWorkspace fun w => { w with marked := w.marked.setIfInBounds j w.marker }

def log (level : Level) (message : String) : Action (SparseFactorization α) Unit :=
  modify fun s => { s with journal := s.journal.push ⟨level, s.logTarget, message⟩ }

def checkLower (extra : Nat) : Action (SparseFactorization α) Unit := do
  let s ← get
  if s.capacity.lower < Word.add s.factors.lower.count extra then Action.fail .outOfMemory

def checkUpper (extra : Nat) : Action (SparseFactorization α) Unit := do
  let s ← get
  if s.capacity.upper < Word.add s.factors.upper.count extra then Action.fail .outOfMemory

def closeStage (i j : Nat) (x : α) : Action (SparseFactorization α) Unit := do
  updateFactors fun f => f.closeStage i j x
  updateCounters fun c => { c with pivotRange := c.pivotRange.extend (Scalar.abs x) }

end SparseFactorization

/-- Take a marker that marks nothing. Marks are cleared when the markers are used up; the largest
word is no marker. -/
def Workspace.nextMarker (w : Workspace α) : Workspace α :=
  if w.marker + 1 = Word.last then
    { w with marked := Array.replicate w.marked.size 0, marker := 1 }
  else { w with marker := w.marker + 1 }

end SimplexBasis
