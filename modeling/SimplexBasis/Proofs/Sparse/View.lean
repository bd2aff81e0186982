import SimplexBasis.Proofs.Entries
import SimplexBasis.Proofs.Storage.CountLists
import SimplexBasis.Proofs.Storage.LineReplacement
import SimplexBasis.Sparse.Active

/-!
# Views of the active submatrix

What the files and lists of the active submatrix hold, as functions of the line. `Active.Shows`
relates the two; every primitive operation is described by what it does to the view.
-/

set_option linter.unusedSectionVars false

namespace SimplexBasis

/-- The contents of an active submatrix. -/
structure ActiveView (α : Type) where
  cols : Nat → List (Nat × α)
  rows : Nat → List Nat
  colLists : Nat → List Nat
  rowLists : Nat → List Nat
  colMax : Array α
  nonzeros : Nat

variable {α β : Type} [Scalar α]

def largestOf (entries : List (Nat × α)) : α :=
  entries.foldl (fun m (_, x) => Scalar.max m (Scalar.abs x)) 0

/-- Count lists after an element was moved to the end of a list. -/
def relisted (L : Nat → List Nat) (e list : Nat) : Nat → List Nat :=
  CountLists.appended (fun k => (L k).erase e) e list

namespace ActiveView

/-- A line of `old` entries counted as one of `new` entries. -/
def recount (v : ActiveView α) (old new : Nat) : ActiveView α :=
  { v with nonzeros := Word.sub (Word.add v.nonzeros new) old }

/-- Row `i`, with the value `x`, removed from column `j`. -/
def removeFromColumn (v : ActiveView α) (i j : Nat) (x : α) : ActiveView α :=
  let entries := withoutKey i (v.cols j)
  recount { v with
    cols := Function.update v.cols j entries
    colLists := relisted v.colLists j entries.length
    colMax := if v.colMax.getD j 0 ≤ Scalar.abs x then v.colMax.setIfInBounds j (largestOf entries)
      else v.colMax } 1 0

def removeFromRow (v : ActiveView α) (i j : Nat) : ActiveView α :=
  let line := without j (v.rows i)
  recount { v with
    rows := Function.update v.rows i line
    rowLists := relisted v.rowLists i line.length } 1 0

/-- Row `i` and column `j` cleared and taken off their lists. -/
def drop (v : ActiveView α) (i j : Nat) : ActiveView α :=
  { v with
    cols := Function.update v.cols j []
    rows := Function.update v.rows i []
    colLists := fun k => (v.colLists k).erase j
    rowLists := fun k => (v.rowLists k).erase i }

end ActiveView

namespace Active

/-- The active submatrix of dimension `m` holds what the view says. -/
structure Shows (a : Active α) (m capacity : Nat) (v : ActiveView α) : Prop where
  cols : a.cols.Stores m capacity v.cols
  rows : a.rows.Stores m capacity v.rows
  colLists : a.colCounts.Holds v.colLists
  colElements : a.colCounts.elements = m
  colLength : a.colCounts.lists = m + 2
  rowLists : a.rowCounts.Holds v.rowLists
  rowElements : a.rowCounts.elements = m
  rowLength : a.rowCounts.lists = m + 2
  colMax : a.colMax = v.colMax
  nonzeros : a.nonzeros = v.nonzeros

variable {a : Active α} {m capacity i j : Nat} {v : ActiveView α}

/-! ### Components -/

omit [Scalar α] in
theorem part_run {σ τ : Type} {p : Part σ τ} {blank t : τ} {act : Action τ β} {x : β} {s : σ}
    (run : act (p.get s) = .ok x t) :
    p.run blank act s = .ok x (p.modify (fun _ => t) (p.modify (fun _ => blank) s)) := by
  unfold Part.run
  simp only [run]

theorem onCols_run {act : Action (LineFile (Nat × α)) β} {x : β} {f : LineFile (Nat × α)}
    (run : act a.cols = .ok x f) : onCols act a = .ok x { a with cols := f } := part_run run

theorem onRows_run {act : Action (LineFile Nat) β} {x : β} {f : LineFile Nat}
    (run : act a.rows = .ok x f) : onRows act a = .ok x { a with rows := f } := part_run run

theorem onColCounts_run {act : Action CountLists β} {x : β} {c : CountLists}
    (run : act a.colCounts = .ok x c) :
    onColCounts act a = .ok x { a with colCounts := c } := part_run run

theorem onRowCounts_run {act : Action CountLists β} {x : β} {c : CountLists}
    (run : act a.rowCounts = .ok x c) :
    onRowCounts act a = .ok x { a with rowCounts := c } := part_run run

theorem setColMax_run (x : α) (hj : j < a.colMax.size) :
    setColMax j x a = .ok () { a with colMax := a.colMax.setIfInBounds j x } :=
  put_eq _ x hj

theorem recount_run (old new : Nat) : recount old new a =
    .ok () { a with nonzeros := Word.sub (Word.add a.nonzeros new) old } := rfl

namespace Shows

theorem columnMax_eq (h : a.Shows m capacity v) (hj : j < m) :
    a.columnMax j = .ok (largestOf (v.cols j)) := by
  unfold columnMax
  rw [h.cols.line_eq hj]
  rfl

theorem moveCol (h : a.Shows m capacity v) (hj : j < m) {n : Nat} (hn : n < m + 2) :
    ∃ c, CountLists.moveTo j n a.colCounts = .ok () c ∧
      { a with colCounts := c }.Shows m capacity { v with colLists := relisted v.colLists j n } := by
  obtain ⟨c, run, holds, elements, lists⟩ :=
    h.colLists.moveTo (by rwa [h.colElements]) (by rwa [h.colLength])
  exact ⟨c, run, { h with
    colLists := holds
    colElements := elements.trans h.colElements
    colLength := lists.trans h.colLength }⟩

theorem moveRow (h : a.Shows m capacity v) (hi : i < m) {n : Nat} (hn : n < m + 2) :
    ∃ c, CountLists.moveTo i n a.rowCounts = .ok () c ∧
      { a with rowCounts := c }.Shows m capacity { v with rowLists := relisted v.rowLists i n } := by
  obtain ⟨c, run, holds, elements, lists⟩ :=
    h.rowLists.moveTo (by rwa [h.rowElements]) (by rwa [h.rowLength])
  exact ⟨c, run, { h with
    rowLists := holds
    rowElements := elements.trans h.rowElements
    rowLength := lists.trans h.rowLength }⟩

theorem recount (h : a.Shows m capacity v) (old new : Nat) :
    { a with nonzeros := Word.sub (Word.add a.nonzeros new) old }.Shows m capacity
      (v.recount old new) :=
  { h with nonzeros := by rw [h.nonzeros]; rfl }

theorem withColMax (h : a.Shows m capacity v) (xs : Array α) :
    { a with colMax := xs }.Shows m capacity { v with colMax := xs } :=
  { h with colMax := rfl }

theorem value?_eq (h : a.Shows m capacity v) (hj : j < m) (distinct : (keys (v.cols j)).Nodup)
    {x : α} (member : (i, x) ∈ v.cols j) : a.value? i j = .ok (some x) := by
  unfold value?
  rw [h.cols.line_eq hj]
  exact congrArg (fun o => Except.ok (Option.map Prod.snd o)) (find?_key distinct member)

/-! ### Removal of entries -/

theorem removeFromColumn (h : a.Shows m capacity v) (hj : j < m)
    (sized : v.colMax.size = m) (distinct : (keys (v.cols j)).Nodup) {x : α}
    (member : (i, x) ∈ v.cols j) (short : (v.cols j).length ≤ m + 2) :
    ∃ b, Active.removeFromColumn i j a = .ok (x, (v.cols j).length - 1) b ∧
      b.Shows m capacity (v.removeFromColumn i j x) := by
  obtain ⟨offset, found, inside⟩ := exists_findIdx?_key (List.mem_map_of_mem (f := Prod.fst) member)
  obtain ⟨f, removed, stored⟩ := h.cols.swapRemove hj inside
  have without : withoutKey i (v.cols j) = LineFile.swapRemoved (v.cols j) offset := by
    simp [withoutKey, found]
  have length : (LineFile.swapRemoved (v.cols j) offset).length = (v.cols j).length - 1 :=
    length_swapRemoved _ _
  have taken : { a with cols := f }.Shows m capacity
      { v with cols := Function.update v.cols j (LineFile.swapRemoved (v.cols j) offset) } :=
    { h with cols := stored }
  obtain ⟨c, moved, listed⟩ := taken.moveCol hj (n := (v.cols j).length - 1) (by omega)
  have offsetEq : a.offsetInColumn? j i = .ok (some offset) := by
    unfold offsetInColumn?
    rw [h.cols.line_eq hj]
    exact congrArg _ found
  have lengthEq : f.length j = .ok ((v.cols j).length - 1) := by
    rw [stored.length_eq hj, Function.update_self, length]
  have inMax : j < a.colMax.size := by rw [h.colMax, sized]; exact hj
  have maxEq : entry a.colMax j = .ok (v.colMax.getD j 0) := by
    rw [entry_getD 0 inMax, h.colMax]
  unfold Active.removeFromColumn ActiveView.removeFromColumn
  simp only [get_bind, offsetEq, h.value?_eq hj distinct member, lift_ok_bind]
  rw [bind_of_ok (onCols_run removed)]
  simp only [get_bind, lengthEq, lift_ok_bind]
  rw [bind_of_ok (onColCounts_run (by exact moved))]
  simp only [get_bind, maxEq, lift_ok_bind, without, length]
  split
  · rename_i small
    have newMax := listed.columnMax_eq hj
    rw [get_bind, newMax, lift_ok_bind, bind_of_ok (setColMax_run _ (by exact inMax)),
      bind_of_ok (recount_run 1 0)]
    exact ⟨_, rfl, by
      simpa only [h.colMax, Function.update_self] using recount (listed.withColMax _) 1 0⟩
  · rename_i large
    rw [bind_of_ok (recount_run 1 0)]
    exact ⟨_, rfl, recount listed 1 0⟩

theorem removeFromRow (h : a.Shows m capacity v) (hi : i < m) (member : j ∈ v.rows i)
    (short : (v.rows i).length ≤ m + 2) :
    ∃ b, Active.removeFromRow i j a = .ok ((v.rows i).length - 1) b ∧
      b.Shows m capacity (v.removeFromRow i j) := by
  obtain ⟨offset, found, inside⟩ := exists_findIdx? member
  obtain ⟨f, removed, stored⟩ := h.rows.swapRemove hi inside
  have without : without j (v.rows i) = LineFile.swapRemoved (v.rows i) offset := by
    simp [SimplexBasis.without, found]
  have length : (LineFile.swapRemoved (v.rows i) offset).length = (v.rows i).length - 1 :=
    length_swapRemoved _ _
  have taken : { a with rows := f }.Shows m capacity
      { v with rows := Function.update v.rows i (LineFile.swapRemoved (v.rows i) offset) } :=
    { h with rows := stored }
  obtain ⟨c, moved, listed⟩ := taken.moveRow hi (n := (v.rows i).length - 1) (by omega)
  have offsetEq : a.offsetInRow? i j = .ok (some offset) := by
    unfold offsetInRow?
    rw [h.rows.line_eq hi]
    exact congrArg _ found
  have lengthEq : f.length i = .ok ((v.rows i).length - 1) := by
    rw [stored.length_eq hi, Function.update_self, length]
  unfold Active.removeFromRow ActiveView.removeFromRow
  simp only [get_bind, offsetEq, lift_ok_bind]
  rw [bind_of_ok (onRows_run removed)]
  simp only [get_bind, lengthEq, lift_ok_bind]
  rw [bind_of_ok (onRowCounts_run (by exact moved)), bind_of_ok (recount_run 1 0)]
  exact ⟨_, rfl, by
    simp only [without, length]
    exact recount listed 1 0⟩

theorem drop (h : a.Shows m capacity v) (hi : i < m) (hj : j < m) :
    ∃ b, Active.drop i j a = .ok () b ∧ b.Shows m capacity (v.drop i j) := by
  obtain ⟨f, colCleared, cols⟩ := h.cols.clearLine hj
  obtain ⟨g, rowCleared, rows⟩ := h.rows.clearLine hi
  obtain ⟨c, colRemoved, colLists, colElements, colLength⟩ :=
    h.colLists.remove (e := j) (by rwa [h.colElements])
  obtain ⟨d, rowRemoved, rowLists, rowElements, rowLength⟩ :=
    h.rowLists.remove (e := i) (by rwa [h.rowElements])
  refine ⟨{ a with cols := f, rows := g, colCounts := c, rowCounts := d }, ?_,
    { cols, rows, colLists, rowLists
      colElements := colElements.trans h.colElements
      colLength := colLength.trans h.colLength
      rowElements := rowElements.trans h.rowElements
      rowLength := rowLength.trans h.rowLength
      colMax := h.colMax
      nonzeros := h.nonzeros }⟩
  unfold Active.drop
  rw [bind_of_ok (onCols_run colCleared), bind_of_ok (onRows_run (by exact rowCleared)),
    bind_of_ok (onColCounts_run (by exact colRemoved)), onRowCounts_run (by exact rowRemoved)]

end Shows

end Active

end SimplexBasis
