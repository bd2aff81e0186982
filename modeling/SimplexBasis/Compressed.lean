import SimplexBasis.Scalar
import SimplexBasis.Action

/-!
# Compressed lines

Lines of indexed entries, stored one behind the other: the columns of a matrix, the stages of a
triangular factor, the adjacency lists of a graph. `line_ofLines` says that lines are read back as
they were written.
-/

namespace SimplexBasis

/-- Line `k` holds the entries at the positions from `start[k]` up to `start[k + 1]`. -/
structure Compressed (α : Type) where
  /-- Where the lines begin; the last element is the end of the last line. -/
  start : Array Nat
  index : Array Nat
  value : Array α
  deriving BEq

namespace Compressed

variable {α : Type}

def empty : Compressed α := ⟨#[0], #[], #[]⟩

def count (c : Compressed α) : Nat := c.index.size

/-- An entry appended to the line that is still open. -/
def push (c : Compressed α) (i : Nat) (x : α) : Compressed α :=
  { c with index := c.index.push i, value := c.value.push x }

def close (c : Compressed α) : Compressed α :=
  { c with start := c.start.push c.index.size }

def pushLine (c : Compressed α) (entries : List (Nat × α)) : Compressed α :=
  (entries.foldl (fun c (i, x) => c.push i x) c).close

theorem pushLine_eq (c : Compressed α) (entries : List (Nat × α)) :
    c.pushLine entries =
      { start := c.start.push (c.count + entries.length)
        index := c.index ++ (entries.map Prod.fst).toArray
        value := c.value ++ (entries.map Prod.snd).toArray } := by
  unfold pushLine
  induction entries generalizing c with
  | nil => simp [close, count]
  | cons e rest ih =>
    rw [List.foldl_cons, ih]
    simp [push, count, Nat.add_assoc, Nat.add_comm 1]

def ofLines (lines : List (List (Nat × α))) : Compressed α := lines.foldl pushLine empty

theorem index_foldl_pushLine (lines : List (List (Nat × α))) (c : Compressed α) :
    (lines.foldl pushLine c).index = c.index ++ (lines.flatten.map Prod.fst).toArray := by
  induction lines generalizing c with
  | nil => simp
  | cons l rest ih => simp [ih, pushLine_eq]

theorem value_foldl_pushLine (lines : List (List (Nat × α))) (c : Compressed α) :
    (lines.foldl pushLine c).value = c.value ++ (lines.flatten.map Prod.snd).toArray := by
  induction lines generalizing c with
  | nil => simp
  | cons l rest ih => simp [ih, pushLine_eq]

theorem start_foldl_pushLine (lines : List (List (Nat × α))) (c : Compressed α) :
    (lines.foldl pushLine c).start = c.start ++
      ((List.range lines.length).map fun k =>
        c.count + (lines.take (k + 1)).flatten.length).toArray := by
  induction lines generalizing c with
  | nil => simp
  | cons l rest ih =>
    rw [List.foldl_cons, ih, pushLine_eq]
    simp [List.range_succ_eq_map, count, Nat.add_assoc]
    rfl

theorem start_ofLines (lines : List (List (Nat × α))) (k : Nat) (h : k ≤ lines.length) :
    (ofLines lines).start[k]? = some (lines.take k).flatten.length := by
  rw [ofLines, start_foldl_pushLine]
  cases k with
  | zero => simp [empty]
  | succ k =>
    have : k < lines.length := h
    simp [empty, count, this]

/-- The positions of line `k`: the first one, and the one behind the last. -/
def extent (c : Compressed α) (k : Nat) : Checked (Nat × Nat) :=
  return (← entry c.start k, ← entry c.start (k + 1))

def line (c : Compressed α) (k : Nat) : Checked (List (Nat × α)) := do
  let (first, last) ← c.extent k
  return (← segment c.index first last).zip (← segment c.value first last)

theorem line_ofLines (lines : List (List (Nat × α))) (k : Nat) (h : k < lines.length) :
    (ofLines lines).line k = .ok lines[k] := by
  have first := entry_eq_ok_iff.2 (start_ofLines lines k (Nat.le_of_lt h))
  have last := entry_eq_ok_iff.2 (start_ofLines lines (k + 1) h)
  have index : (ofLines lines).index = (lines.flatten.map Prod.fst).toArray := by
    simp [ofLines, index_foldl_pushLine, empty]
  have value : (ofLines lines).value = (lines.flatten.map Prod.snd).toArray := by
    simp [ofLines, value_foldl_pushLine, empty]
  have parts : lines.flatten =
      (lines.take k).flatten ++ lines[k] ++ (lines.drop (k + 1)).flatten := by
    rw [← List.flatten_concat, List.take_append_getElem h, ← List.flatten_append,
      List.take_append_drop]
  have total : (lines.take (k + 1)).flatten.length =
      (lines.take k).flatten.length + lines[k].length := by
    rw [← List.take_append_getElem h, List.flatten_concat, List.length_append]
  have cut {γ : Type} (f : Nat × α → γ) :
      segment (lines.flatten.map f).toArray (lines.take k).flatten.length
        (lines.take (k + 1)).flatten.length = .ok (lines[k].map f) := by
    have := segment_append ((lines.take k).flatten.map f) (lines[k].map f)
      ((lines.drop (k + 1)).flatten.map f)
    rwa [← List.map_append, ← List.map_append, ← parts, List.length_map, List.length_map,
      ← total] at this
  unfold line extent
  rw [first, last, index, value]
  simp only [bind, Except.bind, pure, Except.pure]
  rw [cut, cut]
  simp [List.zip_map']

/-! ### Transposition -/

/-- Where the lines of the transpose begin: entry `i` is the number of indices below `i`. -/
def startsOf (m : Nat) (index : Array Nat) : Array Nat :=
  let counts := index.foldl (fun cs i => cs.modify (i + 1) (· + 1)) (Array.replicate (m + 1) 0)
  (List.range m).foldl
    (fun cs i => cs.setIfInBounds (i + 1) (cs.getD (i + 1) 0 + cs.getD i 0)) counts

/-- Write cursors of a transposition together with what is written so far. -/
structure Placement (α : Type) where
  cursor : Array Nat
  index : Array Nat
  value : Array α

/-- Put an entry of line `k` at the cursor of line `i`. -/
def Placement.place (p : Placement α) (k i : Nat) (x : α) : Placement α :=
  let position := p.cursor.getD i 0
  { cursor := p.cursor.setIfInBounds i (position + 1)
    index := p.index.setIfInBounds position k
    value := p.value.setIfInBounds position x }

def Placement.placeLine (c : Compressed α) (p : Placement α) (k : Nat) : Checked (Placement α) :=
  return (← c.line k).foldl (fun p (i, x) => p.place k i x) p

/-- The entries of the first `m` lines by their indices, which are below `m`: line `i` names the
lines that hold `i`, in ascending order. -/
def transpose [Zero α] (c : Compressed α) (m : Nat) : Checked (Compressed α) := do
  if c.index.any (m ≤ ·) then throw .indexOutOfRange
  let start := startsOf m c.index
  let blank := ⟨start, Array.replicate c.count 0, Array.replicate c.count 0⟩
  let placed ← (List.range m).foldlM (Placement.placeLine c) blank
  return ⟨start, placed.index, placed.value⟩

end Compressed

end SimplexBasis
