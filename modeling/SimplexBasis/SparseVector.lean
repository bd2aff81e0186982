import SimplexBasis.Action
import SimplexBasis.Scalar
import SimplexBasis.Sorting.Introsort

/-!
# Sparse vectors

A vector with a value for each row and a list of the rows that are stored. Unpacked, the value of
row `i` is element `i`. Packed, the value of the `k`-th stored row is element `k` and the elements
behind the stored ones are zero. A stored value is never zero: an entry that cancels is kept as
`placeholder`, so that the list stays valid while entries come and go.
-/

namespace SimplexBasis

/-- A vector held as values and a list of the stored rows. -/
structure SparseVector (α : Type) where
  /-- Values, by row or, in packed mode, by position in `indices`. -/
  elements : Array α
  /-- The stored rows in the order in which they came. -/
  indices : Array Nat
  packed : Bool
  deriving BEq

namespace SparseVector

variable {α : Type} [Scalar α]

/-- Values of smaller magnitude are taken for noise when they are added. -/
def tiny : α := 1e-50

/-- The value of a stored entry that cancelled. -/
def placeholder : α := 1e-100

def stored (x : α) : α := if x == 0 then placeholder else x

def empty (n : Nat) : SparseVector α := ⟨Array.replicate n 0, #[], false⟩

def dimension (v : SparseVector α) : Nat := v.elements.size

def count (v : SparseVector α) : Nat := v.indices.size

/-- The stored rows with their values, in the order of `indices`. -/
def entries (v : SparseVector α) : List (Nat × α) :=
  if v.packed then v.indices.toList.zip v.elements.toList
  else v.indices.toList.map fun i => (i, v.elements.getD i 0)

def get (v : SparseVector α) (i : Nat) : Checked α :=
  if v.packed then
    match v.indices.findIdx? (· == i) with
    | some k => entry v.elements k
    | none => .ok 0
  else entry v.elements i

def toDense (v : SparseVector α) : Array α :=
  v.entries.foldl (fun xs (i, x) => xs.setIfInBounds i x) (Array.replicate v.dimension 0)

def infNorm (v : SparseVector α) : α :=
  v.entries.foldl (fun m (_, x) => Scalar.max m (Scalar.abs x)) 0

/-! ### Packing -/

/-- The values moved to their rows. -/
def unpack (v : SparseVector α) : SparseVector α :=
  if v.packed then
    let cleared := overwrite v.elements 0 (List.replicate v.count 0)
    ⟨v.entries.foldl (fun xs (i, x) => xs.setIfInBounds i x) cleared, v.indices, false⟩
  else v

/-- The values moved to the front. -/
def pack (v : SparseVector α) : Checked (SparseVector α) :=
  if v.packed then .ok v
  else if v.dimension < v.count then .error .indexOutOfRange
  else
    let values := v.entries.map Prod.snd
    let cleared := v.indices.foldl (fun xs i => xs.setIfInBounds i 0) v.elements
    .ok ⟨overwrite cleared 0 values, v.indices, true⟩

def setPacked (v : SparseVector α) (packed : Bool) : Checked (SparseVector α) :=
  if packed then v.pack else .ok v.unpack

/-! ### Changing single entries -/

/-- Row `i` set to `x`. A stored row stays stored when it is set to zero. -/
def set (v : SparseVector α) (i : Nat) (x : α) : Checked (SparseVector α) :=
  if v.dimension ≤ i then .error .indexOutOfRange
  else if v.packed then
    match v.indices.findIdx? (· == i) with
    | some k => return { v with elements := ← withEntry v.elements k (stored x) }
    | none =>
      if x != 0 then
        return { v with
          elements := ← withEntry v.elements v.count x
          indices := v.indices.push i }
      else .ok v
  else if v.elements.getD i 0 != 0 then
    .ok { v with elements := v.elements.setIfInBounds i (stored x) }
  else if x != 0 then
    .ok { v with elements := v.elements.setIfInBounds i x, indices := v.indices.push i }
  else .ok v

/-- Row `i`, which is not stored yet, stored with `x`. -/
def insert (v : SparseVector α) (i : Nat) (x : α) : Checked (SparseVector α) :=
  if v.packed then .error .packedVector
  else do
    if (← entry v.elements i) == 0 then
      return { v with
        elements := v.elements.setIfInBounds i (stored x)
        indices := v.indices.push i }
    else throw .alreadyStored

/-- `x` added to row `i`. A sum that is tiny becomes a placeholder, and nothing tiny is stored in a
row that is not stored. -/
def add (v : SparseVector α) (i : Nat) (x : α) : Checked (SparseVector α) :=
  if v.packed then .error .packedVector
  else do
    let old ← entry v.elements i
    if old != 0 then
      let sum := old + x
      let kept := if tiny ≤ Scalar.abs sum then sum else placeholder
      return { v with elements := v.elements.setIfInBounds i kept }
    else if tiny ≤ Scalar.abs x then
      return { v with elements := v.elements.setIfInBounds i x, indices := v.indices.push i }
    else return v

/-- `x` added to row `i`, however small it is. -/
def addRaw (v : SparseVector α) (i : Nat) (x : α) : Checked (SparseVector α) :=
  if v.packed then .error .packedVector
  else do
    let old ← entry v.elements i
    if old == 0 then
      return { v with elements := v.elements.setIfInBounds i x, indices := v.indices.push i }
    else
      return { v with elements := v.elements.setIfInBounds i (stored (old + x)) }

/-- The vector of dimension `n` to which the entries are added one after another. -/
def ofEntries (n : Nat) (list : List (Nat × α)) : Checked (SparseVector α) := do
  checkCapacity n
  list.foldlM (fun v (i, x) => v.add i x) (empty n)

/-! ### Changing many entries -/

/-- All entries removed. Of a short list only the listed elements are cleared. -/
def clear (v : SparseVector α) : SparseVector α :=
  let elements :=
    if v.packed then overwrite v.elements 0 (List.replicate v.count 0)
    else if 4 * v.count < v.dimension then
      v.indices.foldl (fun xs i => xs.setIfInBounds i 0) v.elements
    else Array.replicate v.dimension 0
  ⟨elements, #[], v.packed⟩

/-- List row `i` if its value is not below the tolerance, and clear it otherwise. -/
def scanRow (tolerance : α) (v : SparseVector α) (i : Nat) : SparseVector α :=
  let x := v.elements.getD i 0
  if x != 0 then
    if tolerance ≤ Scalar.abs x then { v with indices := v.indices.push i }
    else { v with elements := v.elements.setIfInBounds i 0 }
  else v

/-- The rows from `first` up to `last` listed anew, in ascending order behind the other rows; those
of magnitude below the tolerance are cleared. Answers how many of them are stored. -/
def scan (v : SparseVector α) (first last : Nat) (tolerance : α) :
    Checked (SparseVector α × Nat) :=
  if v.packed then .error .packedVector
  else
    let last := min last v.dimension
    let first := min first last
    let others := v.indices.filter fun i => i < first || last ≤ i
    let scanned := (List.range' first (last - first)).foldl (scanRow tolerance)
      { v with indices := others }
    .ok (scanned, scanned.count - others.size)

def ofDense (values : Array α) : SparseVector α :=
  (List.range values.size).foldl (scanRow 0) ⟨values, #[], false⟩

/-- The entries below the tolerance removed, placeholders always. -/
def clean (v : SparseVector α) (tolerance : α) : SparseVector α :=
  let tolerance := Scalar.max tolerance tiny
  let kept := v.entries.filter fun (_, x) => tolerance ≤ Scalar.abs x
  let elements :=
    if v.packed then
      overwrite (overwrite v.elements 0 (List.replicate v.count 0)) 0 (kept.map Prod.snd)
    else v.entries.foldl
      (fun xs (i, x) => if tolerance ≤ Scalar.abs x then xs else xs.setIfInBounds i 0) v.elements
  ⟨elements, (kept.map Prod.fst).toArray, v.packed⟩

def sortIndices (v : SparseVector α) : SparseVector α :=
  if v.packed then
    let sorted := Sorting.sort Prod.fst v.entries
    ⟨overwrite v.elements 0 (sorted.map Prod.snd), (sorted.map Prod.fst).toArray, true⟩
  else { v with indices := (v.indices.toList.mergeSort fun a b => a ≤ b).toArray }

/-- The vector with `n` rows, unpacked. Rows from `n` on are dropped, new rows are empty. -/
def resize (v : SparseVector α) (n : Nat) : Checked (SparseVector α) := do
  checkCapacity n
  let v := v.unpack
  let indices := if n < v.dimension then v.indices.filter (· < n) else v.indices
  return ⟨v.elements.extract 0 n ++ Array.replicate (n - v.dimension) 0, indices, false⟩

/-! ### Consistency -/

/-- Mark the rows of `list`; none if one is out of range, repeated or zero. -/
def marks? : List (Nat × α) → Array Bool → Option (Array Bool)
  | [], seen => some seen
  | (i, x) :: rest, seen =>
    if seen.getD i true || x == 0 then none else marks? rest (seen.setIfInBounds i true)

/-- Whether the list names exactly the rows with a value, each once. -/
def isConsistent (v : SparseVector α) : Bool :=
  match marks? v.entries (Array.replicate v.dimension false) with
  | none => false
  | some seen =>
    if v.packed then (v.elements.toList.drop v.count).all (· == 0)
    else (List.range v.dimension).all fun i => seen.getD i false || v.elements.getD i 0 == 0

end SparseVector

end SimplexBasis
