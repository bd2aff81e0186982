import SimplexBasis.Compressed

/-!
# Basis matrices

A square matrix given column by column, the input of a factorization.
-/

namespace SimplexBasis

/-- A square matrix by columns. -/
structure BasisMatrix (α : Type) where
  dimension : Nat
  columns : Compressed α
  deriving BEq

namespace BasisMatrix

variable {α : Type} [Scalar α]

def count (b : BasisMatrix α) : Nat := b.columns.count

def column (b : BasisMatrix α) (j : Nat) : Checked (List (Nat × α)) := b.columns.line j

/-! ### Construction -/

def refuse {β : Type} (detail : String) : Except Stop β :=
  .error (.status (.invalidBasis detail))

/-- Check the entry of column `j` at `position`. `marks` names the last column seen in each row. -/
def checkEntry (n j : Nat) (c : Compressed α) (marks : Array (Option Nat)) (position : Nat) :
    Except Stop (Array (Option Nat)) := do
  let i ← entry c.index position
  if n ≤ i then refuse "row index out of range"
  else if marks.getD i none == some j then refuse "duplicate row index in column"
  else if !Scalar.isFinite (← entry c.value position) then refuse "value not finite"
  else return marks.setIfInBounds i (some j)

/-- Check column `j`: the pointers first, then its entries in order, and last that they are not
fewer than the pointers say. -/
def checkColumn (n : Nat) (c : Compressed α) (marks : Array (Option Nat)) (j : Nat) :
    Except Stop (Array (Option Nat)) := do
  let (first, last) ← c.extent j
  if last < first then refuse "column pointers not increasing"
  else
    let marks ← (List.range' first (min last c.count - first)).foldlM (checkEntry n j c) marks
    if first < last ∧ c.count < last then throw (.breach .indexOutOfRange)
    return marks

/-- The matrix of dimension `n` with the given columns, which must be well formed. -/
def ofCompressed (n : Nat) (c : Compressed α) : Except Stop (BasisMatrix α) := do
  if c.start.size ≠ n + 1 ∨ c.start.getD 0 0 ≠ 0 then
    refuse "column pointers do not match dimension"
  else if c.index.size ≠ c.value.size ∨ c.start.getD n 0 ≠ c.index.size then
    refuse "column pointers do not match entries"
  else
    let _ ← (List.range n).foldlM (checkColumn n c) (Array.replicate n none)
    return ⟨n, c⟩

/-- The matrix with the given columns; explicit zeros are dropped. -/
def ofColumns (n : Nat) (columns : List (List (Nat × α))) : Except Stop (BasisMatrix α) :=
  if columns.length ≠ n then refuse "number of columns does not match dimension"
  else ofCompressed n (.ofLines (columns.map fun entries => entries.filter fun (_, x) => x != 0))

def ofFunction (n : Nat) (column : Nat → List (Nat × α)) : Except Stop (BasisMatrix α) := do
  checkCapacity (3 * n)
  ofColumns n ((List.range n).map column)

/-- The matrix with the given values, row by row. -/
def ofDense (n : Nat) (values : Array α) : Except Stop (BasisMatrix α) :=
  if values.size ≠ Word.mul n n then refuse "dense array does not match dimension"
  else ofFunction n fun j => (List.range n).map fun i => (i, values.getD (i * n + j) 0)

/-- The matrix with `slack` on its diagonal. -/
def slackBasis (n : Nat) (slack : α) : Checked (BasisMatrix α) := do
  checkCapacity (n + 1)
  return ⟨n, .ofLines ((List.range n).map fun i => [(i, slack)])⟩

/-- Columns overwritten by slack columns: each pair names a column and the row of its entry. -/
def withSlacks (b : BasisMatrix α) (replaced : List (Nat × Nat)) (slack : α) :
    Checked (BasisMatrix α) := do
  let columns ← (List.range b.dimension).mapM b.column
  let columns ← replaced.foldlM (fun cs (j, i) => withEntry cs j [(i, slack)]) columns.toArray
  return ⟨b.dimension, .ofLines columns.toList⟩

/-! ### Products and norms -/

def addColumn (b : BasisMatrix α) (x : Array α) (y : Array α) (j : Nat) : Checked (Array α) := do
  (← b.column j).foldlM (fun y (i, a) => do withEntry y i ((← entry y i) + a * (← entry x j))) y

def multiply (b : BasisMatrix α) (x : Array α) : Checked (Array α) :=
  (List.range b.dimension).foldlM (b.addColumn x) (Array.replicate b.dimension 0)

def multiplyTranspose (b : BasisMatrix α) (x : Array α) : Checked (List α) :=
  (List.range b.dimension).mapM fun j => do
    return Scalar.sum (← (← b.column j).mapM fun (i, a) => return a * (← entry x i))

/-- The largest sum of magnitudes in a column. -/
def oneNorm (b : BasisMatrix α) : Checked α := do
  let sums ← (List.range b.dimension).mapM fun j =>
    return Scalar.sum ((← b.column j).map fun (_, a) => Scalar.abs a)
  return sums.foldl Scalar.max 0

end BasisMatrix

end SimplexBasis
