import SimplexBasis.Dense.Factorization
import SimplexBasis.Sparse.Factorizing
import SimplexBasis.Sparse.Loading
import SimplexBasis.Sparse.Positions
import SimplexBasis.Sparse.Replacement
import SimplexBasis.Sparse.Solving

/-!
# Engines

A factorization of either kind behind one interface. A basis is announced (`allocate`), loaded,
factorized and assigned to positions; then any number of solves and column replacements follow.
-/

namespace SimplexBasis

/-- A dense or a sparse factorization. -/
inductive Engine (α : Type) where
  | dense (d : DenseFactorization α)
  | sparse (s : SparseFactorization α)

/-- Give the columns of the pairs the slack variables of their rows, which are numbered from
`offset` on. -/
def relabel (sequence : Array Nat) (pairs : List (Nat × Nat)) (offset : Nat) :
    Checked (Array Nat) :=
  pairs.foldlM (fun sequence (j, i) => withEntry sequence j (offset + i)) sequence

namespace Engine

variable {α β : Type} [Scalar α]

/-! ### Observations -/

def isDense : Engine α → Bool
  | dense _ => true
  | sparse _ => false

def dimension : Engine α → Nat
  | dense d => d.dimension
  | sparse s => s.dimension

def rank : Engine α → Nat
  | dense d => d.rank
  | sparse s => s.rank

def pivots : Engine α → Nat
  | dense d => d.pivots
  | sparse s => s.pivots

def maxPivots : Engine α → Nat
  | dense d => d.maxPivots
  | sparse s => s.options.maxPivotsBeforeRefactor

def needsRefactor (e : Engine α) : Bool := e.maxPivots ≤ e.pivots

/-- Smallest over largest pivot magnitude of the last factorization. -/
def pivotRatio : Engine α → α
  | dense d => d.pivotRange.ratio
  | sparse s => s.counters.pivotRange.ratio

/-- The position of column `j`, if it was pivoted. -/
def positionOf : Engine α → Nat → Checked (Option Nat)
  | dense d, j => d.positionOf j
  | sparse s, j => s.factors.positionOf j

def positions (e : Engine α) (n : Nat) : Checked (List (Option Nat)) := do
  checkCapacity n
  (List.range n).mapM e.positionOf

/-- Pairs of a column without a pivot and a row without one, both ascending. -/
def slackPairs : Engine α → List (Nat × Nat)
  | dense d => d.slackPairs
  | sparse s => s.slackPairs

def journal : Engine α → Array Record
  | dense d => d.journal
  | sparse s => s.journal

def withJournal : Engine α → Array Record → Engine α
  | dense d, records => dense { d with journal := records }
  | sparse s, records => sparse { s with journal := records }

/-! ### Operations -/

def dispatch (onDense : Action (DenseFactorization α) β)
    (onSparse : Action (SparseFactorization α) β) : Action (Engine α) β
  | dense d =>
    match onDense d with
    | .ok x d => .ok x (dense d)
    | .error e d => .error e (dense d)
  | sparse s =>
    match onSparse s with
    | .ok x s => .ok x (sparse s)
    | .error e s => .error e (sparse s)

/-- Announce a basis of dimension `n` whose factors have about the given numbers of entries. -/
def allocate (n lowerHint upperHint : Nat) : Action (Engine α) Unit :=
  dispatch (DenseFactorization.allocate n) (SparseFactorization.allocate n lowerHint upperHint)

def load (b : BasisMatrix α) : Action (Engine α) Unit :=
  dispatch (DenseFactorization.load b) (SparseFactorization.load b)

def factor (context : Context α) : Action (Engine α) Unit :=
  dispatch (DenseFactorization.factor context) (SparseFactorization.factor context)

/-- Write the variable of each pivoted column to the position of the column. -/
def assign (sequence heading : Array Nat) : Action (Engine α) (Array Nat) :=
  dispatch (do (← get).assign sequence heading) (SparseFactorization.assign sequence heading)

/-- Solve with the basis. Answers the solution and the number of its entries. -/
def ftran (v : SparseVector α) : Action (Engine α) (SparseVector α × Nat) :=
  dispatch (DenseFactorization.ftran v) (SparseFactorization.ftran v)

def btran (v : SparseVector α) : Action (Engine α) (SparseVector α × Nat) :=
  dispatch (DenseFactorization.btran v) (SparseFactorization.btran v)

/-- Replace the column at position `row` by the one whose solution with the basis is `column`, with
the entry `pivot` at that position. -/
def replaceColumn (column : SparseVector α) (row : Nat) (pivot : α) : Action (Engine α) Unit :=
  dispatch (DenseFactorization.replaceColumn column row pivot)
    (SparseFactorization.replaceColumn column row pivot)

def log (level : Level) (target message : String) : Action (Engine α) Unit :=
  modify fun e => e.withJournal (e.journal.push ⟨level, target, message⟩)

/-- Multiply the scale of the areas of a sparse factorization. -/
def growAreas (factor : α) : Action (Engine α) Unit :=
  dispatch (pure ()) do SparseFactorization.setAreaFactor ((← get).areaFactor * factor)

end Engine

end SimplexBasis
