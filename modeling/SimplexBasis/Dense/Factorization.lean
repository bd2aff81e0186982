import SimplexBasis.BasisMatrix
import SimplexBasis.Dense.Kernel
import SimplexBasis.Journal
import SimplexBasis.Options
import SimplexBasis.PivotRange
import SimplexBasis.SparseVector

/-!
# Dense factorization

The factorization of a small basis in one array: the first `n` columns hold the factors, the columns
behind them the etas of column replacements. Solves with the basis (`ftran`) and with its transpose
(`btran`) go through the factors and the etas.
-/

namespace SimplexBasis

/-- The order in which a block was eliminated. -/
structure DenseOrder where
  /-- The row pivoted in each stage. -/
  rows : Array Nat
  cols : Array Nat
  rank : Nat

/-- A factorization held in one array. -/
structure DenseFactorization (α : Type) where
  options : Options α
  dimension : Nat
  /-- The number of etas that fit. -/
  maxPivots : Nat
  /-- The factors column by column, and the etas behind them. -/
  elements : Array α
  order : Option DenseOrder
  etaRows : Array Nat
  /-- The reciprocal of the pivot of each eta. -/
  etaInverses : Array α
  loaded : Bool
  valid : Bool
  factorCount : Nat
  factorFlops : Nat
  solveFlops : Nat
  pivotRange : PivotRange α
  logTarget : String
  journal : Array Record

namespace DenseFactorization

variable {α : Type} [Scalar α]

def new (options : Options α) : DenseFactorization α where
  options := options
  dimension := 0
  maxPivots := options.maxPivotsBeforeRefactor
  elements := #[]
  order := none
  etaRows := #[]
  etaInverses := #[]
  loaded := false
  valid := false
  factorCount := 0
  factorFlops := 0
  solveFlops := 0
  pivotRange := .empty
  logTarget := defaultTarget
  journal := #[]

/-! ### Observations -/

def rank (d : DenseFactorization α) : Nat := d.order.elim 0 DenseOrder.rank

def pivots (d : DenseFactorization α) : Nat := d.etaRows.size

/-- The row pivoted with column `j`, its position in the basis. -/
def positionOf (d : DenseFactorization α) (j : Nat) : Checked (Option Nat) := do
  let some order := d.order | return none
  let some k := order.cols.findIdx? (· == j) | return none
  if k < order.rank then return some (← entry order.rows k) else return none

/-! ### Loading and factorizing -/

def log (level : Level) (message : String) : Action (DenseFactorization α) Unit :=
  modify fun d => { d with journal := d.journal.push ⟨level, d.logTarget, message⟩ }

/-- Make room for a basis of dimension `n`. The size is a word, which may be too small for what it
is the size of. -/
def allocate (n : Nat) : Action (DenseFactorization α) Unit := do
  let maxPivots := (← get).options.maxPivotsBeforeRefactor
  let size := Word.mul n (Word.add n maxPivots)
  checkCapacity size
  modify fun d => { d with
    dimension := n
    maxPivots := maxPivots
    elements := Array.replicate size 0
    order := none
    loaded := false
    valid := false }

def writeColumns (b : BasisMatrix α) (elements : Array α) : Checked (Array α) :=
  let n := b.dimension
  if elements.size < n * n then .error .indexOutOfRange
  else (List.range n).foldlM (fun xs j => do
    (← b.column j).foldlM (fun xs (i, x) => withEntry xs (j * n + i) x) xs)
    (overwrite elements 0 (List.replicate (n * n) 0))

/-- Load a basis. The factors and etas of the previous one are discarded. -/
def load (b : BasisMatrix α) : Action (DenseFactorization α) Unit := do
  let n := b.dimension
  let d ← get
  if n ≠ d.dimension ∨ d.elements.size < n * n then allocate n
  let elements ← writeColumns b (← get).elements
  modify fun d => { d with
    elements := elements
    etaRows := #[]
    etaInverses := #[]
    order := none
    loaded := true
    valid := false }

def pivotRangeOf (block : Array α) (n rank : Nat) : PivotRange α :=
  (List.range rank).foldl (fun r k => r.extend (Scalar.abs (block.getD (k * n + k) 0))) .empty

def factor (context : Context α) : Action (DenseFactorization α) Unit := do
  if !(← get).loaded then Action.fail .invalidCall
  modify fun d => { d with logTarget := context.target }
  let n := (← get).dimension
  modify fun d =>
    let e := Dense.eliminate d.elements n n d.options.zeroTolerance
    { d with
      pivotRange := pivotRangeOf e.block n e.rank
      elements := e.block
      order := some ⟨e.rows, e.cols, e.rank⟩
      factorFlops := e.flops
      factorCount := d.factorCount + 1
      solveFlops := 0
      loaded := false
      valid := e.rank == n }
  let d ← get
  let rank := d.rank
  let flops := d.factorFlops
  log .debug s!"dense factor n={n} rank={rank} flops={flops}"
  if rank < n then
    log .warn s!"dense basis singular, rank {rank} of {n}"
    Action.fail .singular

/-! ### Positions -/

/-- Write the variable of each column to the position of the column. -/
def assign (d : DenseFactorization α) (sequence heading : Array Nat) : Checked (Array Nat) := do
  let some order := d.order | return heading
  (List.range d.dimension).foldlM (fun vs k => do
    withEntry vs (← entry order.rows k) (← entry sequence (← entry order.cols k))) heading

/-- Pairs of a column without a pivot and a row without one, both ascending. -/
def slackPairs (d : DenseFactorization α) : List (Nat × Nat) :=
  match d.order with
  | none => []
  | some order =>
    let left (xs : Array Nat) := (xs.toList.drop order.rank).mergeSort fun a b => a ≤ b
    (left order.cols).zip (left order.rows)

/-! ### Solving -/

/-- An unfinished solve: the vector and the number of operations. -/
abbrev Progress (α : Type) := Array α × Nat

def subtractColumn (a : Array α) (n k : Nat) (x : α) (y : Array α) (rows : List Nat) : Array α :=
  rows.foldl (fun y i => y.setIfInBounds i (y.getD i 0 - a.getD (k * n + i) 0 * x)) y

/-- Column `k` of the lower factor applied to the entries below it. -/
def lowerColumn (a : Array α) (n : Nat) : Progress α → Nat → Progress α
  | (y, flops), k =>
    let x := y.getD k 0
    if x != 0 then
      (subtractColumn a n k x y (List.range' (k + 1) (n - (k + 1))), flops + (n - k - 1))
    else (y, flops)

/-- Column `k` of the upper factor: divide by the pivot and apply it to the entries above. -/
def upperColumn (a : Array α) (n : Nat) : Progress α → Nat → Progress α
  | (y, flops), k =>
    let x := y.getD k 0
    if x != 0 then
      let x := x / a.getD (k * n + k) 0
      (subtractColumn a n k x (y.setIfInBounds k x) (List.range k), flops + (k + 1))
    else (y, flops)

def dotColumn (a : Array α) (n k : Nat) (t : Array α) (rows : List Nat) : α :=
  Scalar.sum (rows.map fun i => a.getD (k * n + i) 0 * t.getD i 0)

/-- Entry `k` of the solution with the transposed upper factor. -/
def upperRow (a : Array α) (n : Nat) : Progress α → Nat → Progress α
  | (t, flops), k =>
    let dot := dotColumn a n k t (List.range k)
    (t.setIfInBounds k ((t.getD k 0 - dot) / a.getD (k * n + k) 0), flops + (k + 1))

def lowerRow (a : Array α) (n : Nat) : Progress α → Nat → Progress α
  | (t, flops), k =>
    let dot := dotColumn a n k t (List.range' (k + 1) (n - (k + 1)))
    (t.setIfInBounds k (t.getD k 0 - dot), flops + (n - k - 1))

/-- The entries of a vector by stage moved to the rows of the stages. -/
def toRows (rows : Array Nat) (y : Array α) (n : Nat) : Array α :=
  (List.range n).foldl (fun x k => x.setIfInBounds (rows.getD k n) (y.getD k 0))
    (Array.replicate n 0)

def etaElement (d : DenseFactorization α) (t i : Nat) : α :=
  d.elements.getD ((d.dimension + t) * d.dimension + i) 0

def applyEta (d : DenseFactorization α) : Progress α → Nat → Checked (Progress α)
  | (x, flops), t => do
    let r ← entry d.etaRows t
    let xr ← entry x r
    if xr != 0 then
      let x := (List.range d.dimension).foldl
        (fun x i => x.setIfInBounds i (x.getD i 0 - d.etaElement t i * xr)) x
      return (← withEntry x r (xr * (← entry d.etaInverses t)), flops + d.dimension)
    else return (x, flops)

def applyEtaTranspose (d : DenseFactorization α) : Progress α → Nat → Checked (Progress α)
  | (x, flops), t => do
    let r ← entry d.etaRows t
    let dot := Scalar.sum
      ((List.range (min d.dimension x.size)).map fun i => d.etaElement t i * x.getD i 0)
    let xr ← entry x r
    return (← withEntry x r (xr * (← entry d.etaInverses t) - dot), flops + d.dimension)

/-- The order of the factors, if they can be solved with. -/
def solvable : Action (DenseFactorization α) DenseOrder := do
  let d ← get
  match d.order with
  | some order => if d.valid then return order else Action.fail .invalidCall
  | none => Action.fail .invalidCall

/-- Put a solution into a vector, without the entries below the zero tolerance. The vector keeps its
mode; answers how many entries it stores. -/
def finish (d : DenseFactorization α) (v : SparseVector α) (x : Array α) :
    Checked (SparseVector α × Nat) := do
  if v.dimension ≠ x.size then throw .lengthMismatch
  let filled := { v.unpack with elements := x }
  let (cleaned, count) ← filled.scan 0 d.dimension d.options.zeroTolerance
  return (← if v.packed then cleaned.pack else .ok cleaned, count)

def solution (d : DenseFactorization α) (order : DenseOrder) (v : SparseVector α) :
    Checked (Progress α) := do
  let n := d.dimension
  let y ← order.rows.toList.mapM v.get
  let lower := (List.range n).foldl (lowerColumn d.elements n) (y.toArray, 0)
  let (y, flops) := (List.range n).reverse.foldl (upperColumn d.elements n) lower
  (List.range d.pivots).foldlM d.applyEta (toRows order.rows y n, flops)

def transposedSolution (d : DenseFactorization α) (order : DenseOrder) (v : SparseVector α) :
    Checked (Progress α) := do
  let n := d.dimension
  let (c, flops) ← (List.range d.pivots).reverse.foldlM d.applyEtaTranspose (v.toDense, 0)
  let t ← order.rows.toList.mapM fun i => entry c i
  let upper := (List.range n).foldl (upperRow d.elements n) (t.toArray, flops)
  let (t, flops) := (List.range n).reverse.foldl (lowerRow d.elements n) upper
  return (toRows order.rows t n, flops)

def ftran (v : SparseVector α) : Action (DenseFactorization α) (SparseVector α × Nat) := do
  let order ← solvable
  let (x, flops) ← (← get).solution order v
  modify fun d => { d with solveFlops := d.solveFlops + flops }
  (← get).finish v x

def btran (v : SparseVector α) : Action (DenseFactorization α) (SparseVector α × Nat) := do
  let order ← solvable
  let (y, flops) ← (← get).transposedSolution order v
  modify fun d => { d with solveFlops := d.solveFlops + flops }
  (← get).finish v y

/-! ### Column replacement -/

/-- The elements with eta `t` written: the entries of `column` outside of `row` times `inverse`. -/
def writeEta (d : DenseFactorization α) (t : Nat) (column : SparseVector α) (row : Nat)
    (inverse : α) : Checked (Array α) :=
  let n := d.dimension
  let first := (n + t) * n
  if d.elements.size < first + n then .error .indexOutOfRange
  else column.entries.foldlM (fun xs (i, x) =>
    if i = row then .ok xs
    else if i < n then withEntry xs (first + i) (x * inverse)
    else .error .indexOutOfRange) (overwrite d.elements first (List.replicate n 0))

/-- Replace the column at position `row` by the one whose solution with the basis is `column`, with
the entry `pivot` at that position. -/
def replaceColumn (column : SparseVector α) (row : Nat) (pivot : α) :
    Action (DenseFactorization α) Unit := do
  let _ ← solvable
  let d ← get
  if d.maxPivots ≤ d.pivots then Action.fail .updateRegionFull
  if Scalar.abs pivot < d.options.zeroTolerance then
    log .warn "column replacement rejected"
    Action.fail .singularUpdate
  let inverse := 1 / pivot
  let elements ← d.writeEta d.pivots column row inverse
  modify fun d => { d with
    elements := elements
    etaRows := d.etaRows.push row
    etaInverses := d.etaInverses.push inverse }

end DenseFactorization

end SimplexBasis
