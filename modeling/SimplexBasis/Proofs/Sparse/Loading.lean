import SimplexBasis.Proofs.Basis
import SimplexBasis.Proofs.Sparse.Factorizing
import SimplexBasis.Sparse.Loading

/-!
# Loading a basis

A basis is loaded column by column and then row by row from the transpose; the view that the active
submatrix shows afterwards is the basis. Pivoting the slack columns is a chain of pivots like any
other.
-/

set_option linter.unusedSectionVars false

namespace SimplexBasis

/-- The spare entries of a line with at most `n` entries lead from no position beyond the largest
word. -/
def Options.SparesWithin {α : Type} [Scalar α] (o : Options α) (n : Nat) : Prop :=
  ∀ length ≤ n, o.spare length + addressableWords < UInt64.size

instance {α : Type} [Scalar α] (o : Options α) (n : Nat) : Decidable (o.SparesWithin n) :=
  Nat.decidableBallLE _ _

/-- The spare entries of a line of the basis lead from no position of its areas beyond the largest
word, if these can be addressed. -/
def SparseFactorization.Spacious {α : Type} [Scalar α] (s : SparseFactorization α)
    (b : BasisMatrix α) : Prop :=
  2 * b.dimension + 2 ≤ addressableWords →
    2 * (s.capacityFor b.dimension b.count).files ≤ addressableWords →
    LineFile.Roomy s.options.spare b.dimension (s.capacityFor b.dimension b.count).files

/-- The spare entries with which the lines of the basis are loaded. -/
def SparseFactorization.spareFor {α : Type} [Scalar α] (s : SparseFactorization α)
    (b : BasisMatrix α) : Nat → Nat :=
  if Word.add (Scalar.truncNat (Scalar.ofNat b.count * (1 + s.options.stretch)))
      (Word.mul b.dimension s.options.pad) ≤ (s.capacityFor b.dimension b.count).files then
    s.options.spare
  else fun _ => 0

variable {α : Type} [Scalar α]

def columnMaxima (m : Nat) (columns : List (List (Nat × α))) : Array α :=
  (Array.range m).map fun j => largestOf (columns.getD j [])

namespace ActiveView

variable {m k n j : Nat} {columns : List (List (Nat × α))}

/-- The lines below `k` listed by their lengths. -/
def listedBy (length : Nat → Nat) (k : Nat) : Nat → List Nat := fun n =>
  (List.range k).filter fun j => length j = n

theorem listedBy_succ (length : Nat → Nat) (k : Nat) :
    CountLists.appended (listedBy length k) k (length k) = listedBy length (k + 1) := by
  funext n
  unfold CountLists.appended listedBy
  rw [List.range_succ, List.filter_append]
  by_cases same : n = length k
  · simp [same]
  · simp [same, Ne.symm same]

theorem mem_listedBy {length : Nat → Nat} : j ∈ listedBy length k n ↔ j < k ∧ length j = n := by
  simp [listedBy]

/-- A matrix by columns, and by the lines of its transpose. -/
def ofColumns (m : Nat) (columns : List (List (Nat × α))) (colMax : Array α) : ActiveView α where
  cols j := columns.getD j []
  rows i := keys ((Compressed.transposed columns m).getD i [])
  colLists := listedBy (fun j => (columns.getD j []).length) m
  rowLists := listedBy (fun i => ((Compressed.transposed columns m).getD i []).length) m
  colMax := colMax
  nonzeros := columns.flatten.length

def loaded (m : Nat) (columns : List (List (Nat × α))) : ActiveView α :=
  ofColumns m columns (columnMaxima m columns)

/-- The lines below `k`; the others are empty. -/
def before {ε : Type} (k : Nat) (lines : Nat → List ε) : Nat → List ε := fun j =>
  if j < k then lines j else []

theorem before_zero {ε : Type} (lines : Nat → List ε) : before 0 lines = fun _ => [] := by
  funext j
  simp [before]

theorem before_succ {ε : Type} (k : Nat) (lines : Nat → List ε) :
    Function.update (before k lines) k (lines k) = before (k + 1) lines := by
  funext j
  unfold before
  rw [Function.update_apply]
  grind

theorem before_all {ε : Type} {lines : Nat → List ε} (empty : ∀ j, m ≤ j → lines j = []) :
    before m lines = lines := by
  funext j
  unfold before
  grind

theorem listedBy_zero (length : Nat → Nat) : listedBy length 0 = fun _ => [] := rfl

/-- With the lines below `k` in a file of which `P k` is known, line `k` can be set and `P (k + 1)` is
known then; or this fails with a status `E`. -/
def Fills {ε : Type} (lines : Nat → List ε) (spare : Nat → Nat) (m capacity : Nat)
    (P : Nat → LineFile ε → Prop) (E : Status → Prop) : Prop :=
  ∀ k < m, ∀ f : LineFile ε, f.Stores m capacity (before k lines) → P k f →
    Ends (fun _ g => g.Stores m capacity (before (k + 1) lines) ∧ P (k + 1) g) (fun e _ => E e)
      (LineFile.setLine k (lines k) spare f)

section Fills

variable {ε : Type} {lines : Nat → List ε} {spare : Nat → Nat} {capacity : Nat}

/-- A file is compressed where a line needs it, and may be too small even then. -/
theorem fills_of_roomy (roomy : LineFile.Roomy spare m capacity)
    (short : ∀ l, (lines l).length ≤ m) :
    Fills lines spare m capacity (fun _ _ => True) (· = .outOfMemory) := by
  intro k hk f stored _
  have shorter : ∀ l < m, (before k lines l).length ≤ m := by
    intro l _
    unfold before
    split
    · exact short l
    · simp
  rw [← before_succ]
  exact (stored.setLine hk roomy shorter (short k)).mono (fun _ _ stored => ⟨stored, trivial⟩)
    fun _ _ => And.left

/-- With room for all lines and what they would like to have behind them, every line is set at the
end of what the ones before it have taken. -/
theorem fills_of_ample (small : capacity < UInt64.size)
    (ample : LineFile.loosely spare lines (List.range m) ≤ capacity) :
    Fills lines spare m capacity (fun k f =>
      f.first m ≤ LineFile.loosely spare lines (List.range k) ∧ f.compressions = 0)
      fun _ => False := by
  intro k hk f stored ⟨used, uncompressed⟩
  have next : LineFile.loosely spare lines (List.range (k + 1)) =
      LineFile.loosely spare lines (List.range k) +
        ((lines k).length + spare (lines k).length) := by
    simp [LineFile.loosely, List.range_succ]
  have part : LineFile.loosely spare lines (List.range (k + 1)) ≤
      LineFile.loosely spare lines (List.range m) :=
    sum_le_of_sublist ((List.range_sublist.mpr hk).map _)
  have room : f.first m + ((lines k).length + spare (lines k).length) ≤ capacity := by omega
  obtain ⟨g, run, filled, taken⟩ := stored.replace_ample hk small room
  have unused := taken.unused
  rw [before_succ] at filled
  exact .of_ok run ⟨filled, by omega, taken.compressions.trans uncompressed⟩

end Fills

end ActiveView

theorem Active.onCols_ends {a : Active α} {β : Type} {act : Action (LineFile (Nat × α)) β}
    {Q : β → Active α → Prop} {E : Status → Active α → Prop}
    (h : Ends (fun x f => Q x { a with cols := f }) (fun e f => E e { a with cols := f })
      (act a.cols)) : Ends Q E (onCols act a) := Ends.run _ _ h

theorem Active.onRows_ends {a : Active α} {β : Type} {act : Action (LineFile Nat) β}
    {Q : β → Active α → Prop} {E : Status → Active α → Prop}
    (h : Ends (fun x f => Q x { a with rows := f }) (fun e f => E e { a with rows := f })
      (act a.rows)) : Ends Q E (onRows act a) := Ends.run _ _ h

namespace SparseFactorization

variable {s t : SparseFactorization α} {m : Nat} {b : BasisMatrix α}
  {columns : List (List (Nat × α))} {spare : Nat → Nat} {capacity : Nat} {v : ActiveView α}

theorem column_spec (holds : b.Holds columns) (j : Nat) :
    (keys (columns.getD j [])).Nodup ∧ ∀ i ∈ keys (columns.getD j []), i < b.dimension := by
  by_cases inside : j < columns.length
  · have member : columns.getD j [] ∈ columns := by simp [inside]
    exact ⟨holds.distinct _ member, holds.inside _ member⟩
  · simp [Nat.le_of_not_lt inside, keys]

theorem length_column_le (holds : b.Holds columns) (dimension : b.dimension = m) (j : Nat) :
    (columns.getD j []).length ≤ m := by
  obtain ⟨distinct, inside⟩ := column_spec holds j
  have subset : keys (columns.getD j []) ⊆ List.range m := fun i hi =>
    List.mem_range.mpr (dimension ▸ inside i hi)
  simpa using (distinct.subperm subset).length_le

theorem loadColumn_ends {a : Active α} {j : Nat} {column : List (Nat × α)} (holds : b.Holds columns)
    (hj : j < m) (here : columns[j]? = some column) (dimension : b.dimension = m)
    (shows : a.Shows m capacity v) (sized : v.colMax.size = m)
    (free : ∀ n < m + 2, j ∉ v.colLists n) {P : LineFile (Nat × α) → Prop} {E : Status → Prop}
    (stored : Ends (fun _ f => f.Stores m capacity (Function.update v.cols j column) ∧ P f)
      (fun e _ => E e) (LineFile.setLine j column spare a.cols)) :
    Ends (fun _ c => c.Shows m capacity { v with
        cols := Function.update v.cols j column
        colLists := CountLists.appended v.colLists j column.length
        colMax := v.colMax.setIfInBounds j (largestOf column) } ∧ P c.cols ∧ c.rows = a.rows)
      (fun e c => E e ∧ c.colMax = a.colMax)
      (loadColumn b spare j a) := by
  have member := List.mem_of_getElem? here
  have inside := holds.inside column member
  have fits : column.length ≤ m := by
    have le := length_column_le holds dimension j
    rwa [List.getD_eq_getElem?_getD, here] at le
  have read := holds.column_eq here
  have bounded : (column.all fun e => decide (e.1 < b.dimension)) = true := by
    rw [List.all_eq_true]
    exact fun e he => decide_eq_true (inside e.1 (List.mem_map_of_mem he))
  unfold loadColumn
  rw [read, lift_ok_bind]
  refine (Active.onCols_ends (Q := fun _ c => ∃ f, c = { a with cols := f } ∧
    f.Stores m capacity (Function.update v.cols j column) ∧ P f) (stored.mono
      (fun _ f stored => ⟨f, rfl, stored⟩) fun _ _ failed => ⟨failed, rfl⟩)).bind ?_
  rintro _ _ ⟨f, rfl, stored, known⟩
  have taken : { a with cols := f }.Shows m capacity
      { v with cols := Function.update v.cols j column } := { shows with cols := stored }
  have inMax : j < a.colMax.size := by
    rw [shows.colMax, sized]
    exact hj
  have largest := taken.columnMax_eq hj
  dsimp only at largest
  rw [Function.update_self] at largest
  obtain ⟨c, listed, lists, elements, length⟩ := @CountLists.Holds.add _ _ j column.length shows.colLists
    (by rwa [shows.colElements]) (by rw [shows.colLength]; omega)
    (by rw [shows.colLength]; exact free)
  rw [bounded, require_true_bind, get_bind, largest, lift_ok_bind,
    bind_of_ok (Active.setColMax_run _ (by exact inMax)),
    Active.onColCounts_run (by exact listed)]
  have final : { a with
      cols := f, colCounts := c, colMax := a.colMax.setIfInBounds j (largestOf column) }.Shows m
        capacity { v with
          cols := Function.update v.cols j column
          colLists := CountLists.appended v.colLists j column.length
          colMax := v.colMax.setIfInBounds j (largestOf column) } :=
    { shows with
      cols := stored
      colLists := lists
      colElements := elements.trans shows.colElements
      colLength := length.trans shows.colLength
      colMax := by rw [shows.colMax] }
  exact ⟨final, known, rfl⟩

theorem loadRow_ends {a : Active α} {i : Nat} {lines : List (List (Nat × α))}
    {line : List (Nat × α)} (hi : i < m) (here : lines[i]? = some line) (fits : line.length ≤ m)
    (shows : a.Shows m capacity v) (free : ∀ n < m + 2, i ∉ v.rowLists n)
    {P : LineFile Nat → Prop} {E : Status → Prop}
    (stored : Ends (fun _ f => f.Stores m capacity (Function.update v.rows i (keys line)) ∧ P f)
      (fun e _ => E e) (LineFile.setLine i (keys line) spare a.rows)) :
    Ends (fun _ c => c.Shows m capacity { v with
        rows := Function.update v.rows i (keys line)
        rowLists := CountLists.appended v.rowLists i line.length } ∧ P c.rows ∧ c.cols = a.cols)
      (fun e c => E e ∧ c.colMax = a.colMax)
      (loadRow (Compressed.ofLines lines) spare i a) := by
  have read : (Compressed.ofLines lines).line i = .ok line := by
    have place := List.getElem?_eq_some_iff.mp here
    rw [Compressed.line_ofLines lines i place.1, place.2]
  have length : (keys line).length = line.length := List.length_map ..
  unfold loadRow
  rw [read, lift_ok_bind]
  refine (Active.onRows_ends (Q := fun _ c => ∃ f, c = { a with rows := f } ∧
    f.Stores m capacity (Function.update v.rows i (keys line)) ∧ P f) (stored.mono
      (fun _ f stored => ⟨f, rfl, stored⟩) fun _ _ failed => ⟨failed, rfl⟩)).bind ?_
  rintro _ _ ⟨f, rfl, stored, known⟩
  obtain ⟨c, listed, lists, elements, lengths⟩ := @CountLists.Holds.add _ _ i line.length shows.rowLists
    (by rwa [shows.rowElements]) (by rw [shows.rowLength]; omega)
    (by rw [shows.rowLength]; exact free)
  rw [List.length_map, Active.onRowCounts_run (by exact listed)]
  have final : { a with rows := f, rowCounts := c }.Shows m capacity { v with
      rows := Function.update v.rows i (keys line)
      rowLists := CountLists.appended v.rowLists i line.length } :=
    { shows with
      rows := stored
      rowLists := lists
      rowElements := elements.trans shows.rowElements
      rowLength := lengths.trans shows.rowLength }
  exact ⟨final, known, rfl⟩

/-! ### The loops -/

section Loops

variable {a : Active α} {P : Nat → LineFile (Nat × α) → Prop} {P' : Nat → LineFile Nat → Prop}
  {E E' : Status → Prop} {n : Nat} {xs : Array α}

theorem loadColumns_ends (holds : b.Holds columns) (dimension : b.dimension = m)
    (fills : ActiveView.Fills (fun j => columns.getD j []) spare m capacity P E)
    {rows : Nat → List Nat} {rowLists : Nat → List Nat}
    (shows : a.Shows m capacity ⟨fun _ => [], rows, fun _ => [], rowLists, xs, n⟩)
    (sized : xs.size = m) (start : P 0 a.cols) :
    Ends (fun _ c => (∃ ys, ys.size = m ∧ (∀ j < m, ys.getD j 0 = largestOf (columns.getD j [])) ∧
        c.Shows m capacity ⟨fun j => columns.getD j [], rows,
          ActiveView.listedBy (fun j => (columns.getD j []).length) m, rowLists, ys, n⟩) ∧
        P m c.cols ∧ c.rows = a.rows)
      (fun e c => E e ∧ c.colMax.size = m)
      ((List.range m).forM (loadColumn b spare) a) := by
  have length : columns.length = m := holds.length.trans dimension
  have outside : ∀ j, m ≤ j → columns.getD j [] = [] := fun j hj => by simp [length, hj]
  have loop := Ends.forM_range (f := loadColumn b spare) (s := a) (n := m)
    (E := fun e c => E e ∧ c.colMax.size = m) (fun k c => (∃ ys, ys.size = m ∧
      (∀ j < k, ys.getD j 0 = largestOf (columns.getD j [])) ∧
      c.Shows m capacity ⟨ActiveView.before k fun j => columns.getD j [], rows,
        ActiveView.listedBy (fun j => (columns.getD j []).length) k, rowLists, ys, n⟩) ∧
      P k c.cols ∧ c.rows = a.rows) ?_ ?_
  · rwa [ActiveView.before_all outside] at loop
  · refine ⟨⟨xs, sized, by simp, ?_⟩, start, rfl⟩
    rwa [ActiveView.before_zero, ActiveView.listedBy_zero]
  · rintro k hk c ⟨⟨ys, size, known, shows⟩, file, same⟩
    have here : columns[k]? = some (columns.getD k []) := by simp [length, hk]
    have stored := fills k hk c.cols shows.cols file
    rw [← ActiveView.before_succ] at stored
    refine (loadColumn_ends holds hk here dimension shows size ?_ stored).mono ?_ ?_
    · intro n hn member
      exact Nat.lt_irrefl k (ActiveView.mem_listedBy.mp member).1
    · rintro _ c' ⟨shows', file', same'⟩
      dsimp only at shows'
      rw [ActiveView.before_succ, ActiveView.listedBy_succ] at shows'
      refine ⟨⟨_, by simpa using size, fun j hj => ?_, shows'⟩, file', same'.trans same⟩
      rw [getD_setIfInBounds (by omega)]
      by_cases same : j = k
      · rw [if_pos same, same]
      · rw [if_neg same]
        exact known j (by omega)
    · rintro e c' ⟨failed, same⟩
      exact ⟨failed, by rw [same, shows.colMax]; exact size⟩

theorem loadRows_ends {lines : List (List (Nat × α))} (length : lines.length = m)
    (fits : ∀ i, (lines.getD i []).length ≤ m)
    (fills : ActiveView.Fills (fun i => keys (lines.getD i [])) spare m capacity P' E')
    {cols : Nat → List (Nat × α)} {colLists : Nat → List Nat}
    (shows : a.Shows m capacity ⟨cols, fun _ => [], colLists, fun _ => [], xs, n⟩)
    (sized : xs.size = m) (start : P' 0 a.rows) :
    Ends (fun _ c => c.Shows m capacity ⟨cols, fun i => keys (lines.getD i []), colLists,
        ActiveView.listedBy (fun i => (lines.getD i []).length) m, xs, n⟩ ∧
        P' m c.rows ∧ c.cols = a.cols)
      (fun e c => E' e ∧ c.colMax.size = m)
      ((List.range m).forM (loadRow (Compressed.ofLines lines) spare) a) := by
  have outside : ∀ i, m ≤ i → keys (lines.getD i []) = [] := fun i hi => by simp [length, hi, keys]
  have loop := Ends.forM_range (f := loadRow (Compressed.ofLines lines) spare) (s := a) (n := m)
    (E := fun e c => E' e ∧ c.colMax.size = m) (fun k c => c.Shows m capacity
      ⟨cols, ActiveView.before k fun i => keys (lines.getD i []), colLists,
        ActiveView.listedBy (fun i => (lines.getD i []).length) k, xs, n⟩ ∧
      P' k c.rows ∧ c.cols = a.cols) ?_ ?_
  · rwa [ActiveView.before_all outside] at loop
  · refine ⟨?_, start, rfl⟩
    rwa [ActiveView.before_zero, ActiveView.listedBy_zero]
  · rintro k hk c ⟨shows, file, same⟩
    have here : lines[k]? = some (lines.getD k []) := by simp [length, hk]
    have stored := fills k hk c.rows shows.rows file
    rw [← ActiveView.before_succ] at stored
    refine (loadRow_ends hk here (fits k) shows ?_ stored).mono ?_ ?_
    · intro n hn member
      exact Nat.lt_irrefl k (ActiveView.mem_listedBy.mp member).1
    · rintro _ c' ⟨shows', file', same'⟩
      dsimp only at shows'
      rw [ActiveView.before_succ k fun i => keys (lines.getD i []),
        ActiveView.listedBy_succ (fun i => (lines.getD i []).length)] at shows'
      exact ⟨shows', file', same'.trans same⟩
    · rintro e c' ⟨failed, same⟩
      exact ⟨failed, by rw [same, shows.colMax]; exact sized⟩

end Loops

/-! ### The loaded view -/

theorem transposed_getD {i : Nat} (hi : i < m) : (Compressed.transposed columns m).getD i [] =
    Compressed.bucket (Compressed.tagged columns) i := by
  simp [Compressed.transposed, hi]

theorem mem_keys_transposed {i j : Nat} (hi : i < m) :
    j ∈ keys ((Compressed.transposed columns m).getD i []) ↔ i ∈ keys (columns.getD j []) := by
  rw [transposed_getD hi]
  constructor
  · intro key
    obtain ⟨⟨j, x⟩, member, rfl⟩ := List.mem_map.mp key
    obtain ⟨line, here, entry_⟩ := Compressed.mem_bucket_tagged.mp member
    have read : columns.getD j [] = line := by simp [here]
    exact read ▸ List.mem_map_of_mem (f := Prod.fst) entry_
  · intro key
    obtain ⟨⟨i, x⟩, member, rfl⟩ := List.mem_map.mp key
    have here : columns[j]? = some (columns.getD j []) := by
      by_cases inside : j < columns.length
      · simp [inside]
      · simp [Nat.le_of_not_lt inside] at member
    exact List.mem_map_of_mem (f := Prod.fst)
      (Compressed.mem_bucket_tagged.mpr ⟨_, here, member⟩)

theorem listedBy_listed (length : Nat → Nat) {P : Nat → Nat → Prop}
    (same : ∀ j < m, ∀ n, P j n ↔ length j = n) : Listed m (ActiveView.listedBy length m) P := by
  refine fun n hn => ⟨List.nodup_range.filter _, fun j => ?_⟩
  rw [ActiveView.mem_listedBy]
  exact and_congr_right fun hj => (same j hj n).symm

theorem entryCount_columns (length : columns.length = m) :
    entryCount m (fun j => columns.getD j []) = columns.flatten.length := by
  rw [entryCount_eq_sum, List.length_flatten]
  congr 1
  refine List.ext_getElem (by simp [length]) fun j hj hj' => ?_
  have inside : j < columns.length := by simpa using hj'
  simp [inside]

theorem entryCount_rows (holds : b.Holds columns) : entryCount b.dimension
    (fun i => keys ((Compressed.transposed columns b.dimension).getD i [])) =
      columns.flatten.length := by
  have inside : ∀ e ∈ Compressed.tagged columns, e.1 < b.dimension := fun e he => by
    have key : e.1 ∈ (Compressed.tagged columns).map Prod.fst := List.mem_map_of_mem he
    rw [Compressed.map_fst_tagged] at key
    obtain ⟨f, hf, same⟩ := List.mem_map.mp key
    obtain ⟨column, member, here⟩ := List.mem_flatten.mp hf
    exact same ▸ holds.inside column member _ (List.mem_map_of_mem here)
  have total := Compressed.offset_all inside
  rw [← List.length_map Prod.fst, Compressed.map_fst_tagged, List.length_map] at total
  rw [← total, Compressed.offset, List.length_flatten, List.map_map, entryCount_eq_sum]
  congr 1
  refine List.map_congr_left fun i hi => ?_
  rw [transposed_getD (List.mem_range.mp hi), List.length_map]
  rfl

theorem consistent_ofColumns (holds : b.Holds columns) (dimension : b.dimension = m)
    {ys : Array α} (sized : ys.size = m) (small : columns.flatten.length < UInt64.size) :
    (ActiveView.ofColumns m columns ys).Consistent m [] [] := by
  have length : columns.length = m := holds.length.trans dimension
  have shared : ∀ i < m, ∀ j, j ∈ keys ((Compressed.transposed columns m).getD i []) ↔
      i ∈ keys (columns.getD j []) := fun i hi j => mem_keys_transposed hi
  exact
    { distinctCols := fun j _ => (column_spec holds j).1
      distinctRows := fun i hi => by
        change (keys ((Compressed.transposed columns m).getD i [])).Nodup
        rw [transposed_getD hi]
        exact Compressed.nodup_bucket holds.distinct
      agree := fun i hi j _ => shared i hi j
      colRange := fun j _ i hi => ⟨dimension ▸ (column_spec holds j).2 i hi, by simp⟩
      rowRange := fun i hi j hj => by
        have key := (shared i hi j).mp hj
        refine ⟨Nat.lt_of_not_le fun out => ?_, by simp⟩
        simp [length, out, keys] at key
      colListed := listedBy_listed _ fun j _ n => by simp [ActiveView.ofColumns, eq_comm]
      rowListed := by
        refine ⟨fun i => ((Compressed.transposed columns m).getD i []).length,
          fun i _ => .inl ?_, listedBy_listed _ fun i _ n => by simp [eq_comm]⟩
        exact (List.length_map Prod.fst).symm
      sized := sized
      counted := (entryCount_columns length).symm
      small := small }

theorem getD_columnMaxima {j : Nat} (hj : j < m) :
    (columnMaxima m columns).getD j 0 = largestOf (columns.getD j []) := by
  simp [columnMaxima, Array.getD, hj]

theorem eq_columnMaxima {ys : Array α} (sized : ys.size = m)
    (known : ∀ j < m, ys.getD j 0 = largestOf (columns.getD j [])) :
    ys = columnMaxima m columns := by
  refine Array.ext (by simp [sized, columnMaxima]) fun j hj hj' => ?_
  have read := known j (sized ▸ hj)
  rw [Array.getD_eq_getD_getElem?, Array.getElem?_eq_getElem hj, Option.getD_some] at read
  simpa [columnMaxima] using read

theorem initial_loaded : Initial m columns (ActiveView.loaded m columns) where
  cols _ _ := rfl
  known _ hj _ := getD_columnMaxima hj
  aside i here := by
    obtain ⟨-, length⟩ := ActiveView.mem_listedBy.mp here
    exact List.ne_nil_of_length_eq_add_one ((List.length_map Prod.fst).trans length)

/-! ### Loading -/

theorem count_eq (holds : b.Holds columns) : b.count = columns.flatten.length := by
  unfold BasisMatrix.count
  rw [holds.stored, Compressed.count_ofLines]

theorem loadingSpare_eq (options : t.options = s.options) (dimension : t.dimension = b.dimension)
    (areas : t.capacity = s.capacityFor b.dimension b.count) :
    t.loadingSpare b.count = s.spareFor b := by
  unfold loadingSpare spareFor
  rw [options, dimension, areas]

/-- The spare entries with which lines are loaded lead from no position beyond the largest word. -/
theorem Spacious.roomy (spacious : s.Spacious b) (size : 2 * b.dimension + 2 ≤ addressableWords)
    (files : 2 * (s.capacityFor b.dimension b.count).files ≤ addressableWords) :
    LineFile.Roomy (s.spareFor b) b.dimension (s.capacityFor b.dimension b.count).files := by
  have roomy := spacious size files
  unfold spareFor
  split
  · exact roomy
  · exact fun length hl => Nat.lt_of_le_of_lt (Nat.le_add_right _ _) (roomy length hl)

theorem length_bucket_le (holds : b.Holds columns) (dimension : b.dimension = m) (i : Nat) :
    ((Compressed.transposed columns m).getD i []).length ≤ m := by
  by_cases hi : i < m
  · rw [transposed_getD hi]
    have subset : keys (Compressed.bucket (Compressed.tagged columns) i) ⊆ List.range m := by
      intro k hk
      obtain ⟨⟨k, x⟩, member, rfl⟩ := List.mem_map.mp hk
      obtain ⟨line, here, -⟩ := Compressed.mem_bucket_tagged.mp member
      have inside := (List.getElem?_eq_some_iff.mp here).1
      rw [holds.length, dimension] at inside
      exact List.mem_range.mpr inside
    simpa using ((Compressed.nodup_bucket holds.distinct).subperm subset).length_le
  · simp [Compressed.transposed, Nat.le_of_not_lt hi]

theorem fillFiles_ends (holds : b.Holds columns) (dimension : b.dimension = m)
    {P : Nat → LineFile (Nat × α) → Prop} {P' : Nat → LineFile Nat → Prop} {E E' : Status → Prop}
    (fills : ActiveView.Fills (fun j => columns.getD j []) (s.loadingSpare b.count) m
      s.capacity.files P E)
    (fills' : ActiveView.Fills (fun i => keys ((Compressed.transposed columns m).getD i []))
      (s.loadingSpare b.count) m s.capacity.files P' E')
    (start : P 0 s.active.cols) (start' : P' 0 s.active.rows) {n : Nat} {xs : Array α}
    (shows : s.active.Shows m s.capacity.files
      ⟨fun _ => [], fun _ => [], fun _ => [], fun _ => [], xs, n⟩) (sized : xs.size = m) :
    Ends (fun _ t => ∃ a, t = { s with active := a } ∧
        a.Shows m s.capacity.files (.loaded m columns) ∧ P m a.cols ∧ P' m a.rows)
      (fun e t => (E e ∨ E' e) ∧ ∃ a, t = { s with active := a } ∧ a.colMax.size = m)
      (fillFiles b s) := by
  have transpose : b.columns.transpose m =
      .ok (Compressed.ofLines (Compressed.transposed columns m)) := by
    rw [holds.stored]
    exact Compressed.transpose_ofLines (holds.length.trans dimension) (dimension ▸ holds.inside)
  unfold fillFiles
  rw [get_bind, dimension]
  refine onActive_ends ?_
  refine ((loadColumns_ends holds dimension fills shows sized start).mono (fun _ _ => id)
    fun e c failed => ⟨.inl failed.1, c, rfl, failed.2⟩).bind ?_
  rintro _ c ⟨⟨ys, size, known, shows⟩, file, same⟩
  rw [transpose, lift_ok_bind]
  refine ((loadRows_ends (by simp [Compressed.transposed]) (length_bucket_le holds dimension) fills'
    shows size (same ▸ start')).mono (fun _ _ => id) fun e c failed =>
      ⟨.inr failed.1, c, rfl, failed.2⟩).bind ?_
  rintro _ c ⟨shows, file', same⟩
  cases eq_columnMaxima size known
  exact ⟨_, rfl, { shows with nonzeros := count_eq holds }, same ▸ file, file'⟩

/-! ### Slack columns -/

section Slacks

variable {ρ : Rules α} {p : Point α} {o : Options α} {j : Nat}

theorem Underway.pivotSlack_eq {stages : List (Stage α)} (h : Underway s m stages v) (hj : j < m)
    (slack : α) : SparseFactorization.pivotSlack slack j s =
    (match v.cols j with
      | [(i, x)] =>
        if Scalar.abs x == slack && !decide (i ∈ stages.map Stage.row) then do
          let _ ← SparseFactorization.pivotColumnSingleton i j
          updateCounters fun c => { c with slacks := c.slacks + 1 }
        else pure ()
      | _ => pure () : Action (SparseFactorization α) Unit) s := by
  unfold SparseFactorization.pivotSlack
  rw [get_bind, h.active.cols.line_eq hj, lift_ok_bind]
  rcases only : v.cols j with _ | ⟨⟨i, x⟩, _ | ⟨_, _⟩⟩
  · rfl
  · have hi := (h.consistent.colRange j hj i (by simp [only])).1
    have pivoted : isPivoted s.factors.stageOfRow i = .ok (decide (i ∈ stages.map Stage.row)) := by
      rw [h.factors]
      exact isPivoted_eq _ hi
    dsimp only
    rw [pivoted, lift_ok_bind]
  · rfl

/-- A slack column is pivoted like other column singletons, whatever the tolerances are. -/
theorem pivotSlack_leads (slack : α) (hj : j < m) (p : Point α) :
    ∃ q, ∀ ρ : Rules α, ρ.options = o → Leads ρ m p (pivotSlack slack j) q (pure ()) := by
  by_cases fits : p.Fits m
  · suffices h : ∃ q, ∀ ρ : Rules α, ρ.options = o → Leads ρ m p _ q (pure ()) from
      h.imp fun q leads ρ same =>
        (Leads.here fun s here => here.working.underway.pivotSlack_eq hj slack).trans (leads ρ same)
    split
    · rename_i i x only
      split
      · refine ⟨(p.pivoted o.zeroTolerance i j x).tallied fun c => { c with slacks := c.slacks + 1 },
          fun ρ same => ?_⟩
        subst same
        exact (pivotColumnSingleton_leads fits hj only).andThen (updateCounters_leads fun _ => rfl)
      · exact ⟨p, fun _ _ => .refl _⟩
    · exact ⟨p, fun _ _ => .refl _⟩
  · exact ⟨p, fun _ _ => .of_not_fits fits⟩

theorem pivotSlacks_leads (p : Point α) :
    ∃ q, ∀ ρ : Rules α, ρ.options = o → Leads ρ m p pivotSlacks q (pure ()) := by
  have loop : ∀ (xs : List Nat), (∀ j ∈ xs, j < m) → ∀ p : Point α, ∃ q, ∀ ρ : Rules α,
      ρ.options = o → Leads ρ m p (xs.forM (pivotSlack (Scalar.abs o.slackValue))) q (pure ()) := by
    intro xs inside
    induction xs with
    | nil => exact fun p => ⟨p, fun _ _ => .refl _⟩
    | cons j xs ih =>
      intro p
      obtain ⟨q, first⟩ := @pivotSlack_leads _ _ m o j (Scalar.abs o.slackValue)
        (inside j List.mem_cons_self) p
      obtain ⟨r, second⟩ := ih (fun k member => inside k (List.mem_cons_of_mem j member)) q
      exact ⟨r, fun ρ same => forM_cons_eq _ _ _ ▸ (first ρ same).andThen (second ρ same)⟩
  suffices h : ∃ q, ∀ ρ : Rules α, ρ.options = o → Leads ρ m p
      (if Scalar.abs o.slackValue == 0 then pure ()
      else (List.range m).forM (pivotSlack (Scalar.abs o.slackValue))) q (pure ()) from
    h.imp fun q leads ρ same => (Leads.here fun s here => by
      have slack : s.options.slackValue = o.slackValue :=
        congrArg (·.slackValue) (here.options.trans same)
      unfold pivotSlacks
      rw [get_bind, slack]
      split
      · rfl
      · rw [get_bind, here.working.dimension]).trans (leads ρ same)
  split
  · exact ⟨p, fun _ _ => .refl _⟩
  · exact loop _ (fun _ => List.mem_range.mp) p

theorem pivotSlacks_ends {stages : List (Stage α)} (h : Working s m stages v) :
    Ends (fun _ t => Advanced s m stages v t) (Exhausted s m stages) (pivotSlacks s) := by
  obtain ⟨q, leads⟩ := @pivotSlacks_leads _ _ m s.rules.options ⟨stages, v, s.tallies⟩
  exact (leads s.rules rfl).advanced h.at

end Slacks

/-! ### A load -/

theorem ready_blank (m : Nat) : (Workspace.blank (α := α) m).Ready m :=
  { slot := rfl
    size := by simp [Workspace.blank]
    vanish := fun k hk => .inl (by simp [Workspace.blank, Array.getD, hk])
    marked := by simp [Workspace.blank]
    marks := by simp [Workspace.blank, Array.getD]
    pattern := by simp [Workspace.blank]
    resume := by simp [Workspace.blank] }

def Overflows (b : Breach) : Prop := b = .capacityOverflow

/-- The arrays and the areas for a basis of dimension `m` with `count` entries can be addressed. -/
def Addressable (s : SparseFactorization α) (m count : Nat) : Prop :=
  2 * m + 2 ≤ addressableWords ∧ (s.capacityFor m count).lower ≤ addressableWords ∧
    2 * (s.capacityFor m count).files ≤ addressableWords

instance (m count : Nat) : Decidable (s.Addressable m count) :=
  inferInstanceAs (Decidable (_ ∧ _ ∧ _))

theorem resize_endsOr {B : Breach → Prop} (m : Nat) (s : SparseFactorization α)
    (broken : ¬2 * m + 2 ≤ addressableWords → B .capacityOverflow) :
    EndsOr B (fun _ t => Prepared t ∧ t.dimension = m ∧ t.options = s.options ∧
        t.capacityFor = s.capacityFor)
      (fun _ _ => False) (resize m s) :=
  .checkCapacity broken fun fits => ⟨⟨ready_blank m, by simp, fits⟩, rfl, rfl, rfl⟩

theorem allocate_endsOr {B : Breach → Prop} (n lowerHint upperHint : Nat)
    (s : SparseFactorization α) (broken : ¬2 * n + 2 ≤ addressableWords → B .capacityOverflow) :
    EndsOr B (fun _ t => Prepared t ∧ t.options = s.options) (fun _ _ => False)
      (allocate n lowerHint upperHint s) :=
  (resize_endsOr n s broken).bind fun _ _ ⟨prepared, _, options, _⟩ =>
    ⟨⟨prepared.workspace, prepared.sized, prepared.addressable⟩, options⟩

theorem allocate_ends (n lowerHint upperHint : Nat) (s : SparseFactorization α) :
    EndsOr Overflows (fun _ t => Prepared t ∧ t.options = s.options) (fun _ _ => False)
      (allocate n lowerHint upperHint s) :=
  allocate_endsOr n lowerHint upperHint s fun _ => rfl

/-- What loading begins with. -/
structure Cleared (t : SparseFactorization α) (m : Nat) : Prop where
  prepared : Prepared t
  dimension : t.dimension = m
  shows : t.active.Shows m t.capacity.files
    ⟨fun _ => [], fun _ => [], fun _ => [], fun _ => [], t.active.colMax, t.active.nonzeros⟩
  cols : t.active.cols = .blank m t.capacity.files (0, 0)
  rows : t.active.rows = .blank m t.capacity.files 0
  factors : t.factors = .blank m
  etas : t.etas = .empty
  phase : t.phase = .loaded
  pending : t.pending = none
  threshold : t.sparseThreshold = 0
  addressable : 2 * t.capacity.files ≤ addressableWords
  contained : t.Contained
  tallies : t.tallies = ⟨0, 0, 0, 0, 0⟩

theorem shows_blank (m capacity n : Nat) (xs : Array α) :
    (⟨.blank m capacity (0, 0), .blank m capacity 0, .blank m (m + 2), .blank m (m + 2), xs, n⟩ :
      Active α).Shows m capacity
      ⟨fun _ => [], fun _ => [], fun _ => [], fun _ => [], xs, n⟩ where
  cols := LineFile.stores_blank _
  rows := LineFile.stores_blank _
  colLists := CountLists.holds_blank _ _
  colElements := rfl
  colLength := rfl
  rowLists := CountLists.holds_blank _ _
  rowElements := rfl
  rowLength := rfl
  colMax := rfl
  nonzeros := rfl

theorem empty_endsOr {B : Breach → Prop} {m : Nat} (h : Prepared s) (dimension : s.dimension = m)
    (count : Nat) (broken : ¬s.Addressable m count → B .capacityOverflow) :
    EndsOr B (fun _ t => Cleared t m ∧ t.options = s.options ∧
        t.capacity = s.capacityFor m count) (fun _ _ => False) ((do
      let capacity := (← get).capacityFor m count
      checkCapacity capacity.lower
      checkCapacity (2 * capacity.files)
      modify fun s => { s with
        capacity := capacity
        active := { s.active with
          cols := .blank m capacity.files (0, 0)
          rows := .blank m capacity.files 0
          colCounts := .blank m (m + 2)
          rowCounts := .blank m (m + 2) }
        factors := .blank m
        etas := .empty
        phase := .loaded
        pending := none
        sparseThreshold := 0
        counters := { Counters.zero with basisCount := count } } :
      Action (SparseFactorization α) Unit) s) := by
  rw [get_bind]
  refine .checkCapacity (fun large => broken fun fits => large fits.2.1) fun lower =>
    .checkCapacity (fun large => broken fun fits => large fits.2.2) fun fits => ⟨?_, rfl, rfl⟩
  have upper : (s.capacityFor m count).upper ≤ addressableWords := by
    change (s.capacityFor m count).files ≤ addressableWords
    omega
  exact
    { prepared := ⟨h.workspace, h.sized, h.addressable⟩
      dimension
      shows := shows_blank ..
      cols := rfl
      rows := rfl
      factors := rfl
      etas := rfl
      phase := rfl
      pending := rfl
      threshold := rfl
      addressable := fits
      contained := ⟨Nat.zero_le _, Nat.zero_le _, lower, upper⟩
      tallies := rfl }

theorem prepare_endsOr {B : Breach → Prop} (h : Prepared s) (m count : Nat)
    (broken : ¬s.Addressable m count → B .capacityOverflow) :
    EndsOr B (fun _ t => Cleared t m ∧ t.options = s.options ∧
        t.capacity = s.capacityFor m count) (fun _ _ => False) (prepare m count s) := by
  unfold prepare
  rw [get_bind]
  split
  · refine (resize_endsOr m s fun large => broken fun fits => large fits.1).bind ?_
    rintro _ u ⟨prepared, dimension, options, areas⟩
    have addressable : u.Addressable m count ↔ s.Addressable m count := by
      unfold Addressable
      rw [areas]
    rw [← options, ← areas]
    exact empty_endsOr prepared dimension count fun large => broken (mt addressable.mpr large)
  · rename_i same
    exact empty_endsOr h (not_not.mp same).symm count broken

theorem orPending_ends {act : Action (SparseFactorization α) Unit}
    {Q : Unit → SparseFactorization α → Prop} {E : Status → SparseFactorization α → Prop}
    (h : Ends Q E (act s)) :
    Ends (fun done t => done = true ∧ Q () t ∨
        done = false ∧ ∃ e u, E e u ∧ t = { u with pending := some e })
      (fun _ _ => False) (orPending act s) := by
  unfold orPending
  refine h.attempt.bind ?_
  rintro _ t (⟨_, rfl, ok⟩ | ⟨e, rfl, failed⟩)
  · exact .inl ⟨rfl, ok⟩
  · exact .inr ⟨rfl, e, t, failed, rfl⟩

theorem spacious_of_spares (spares : s.options.SparesWithin b.dimension) : s.Spacious b := by
  intro size files length le
  have room := spares length le
  omega

/-- The lines of a basis are filled in, and no slack column is pivoted yet. -/
structure Filled (u : SparseFactorization α) (b : BasisMatrix α)
    (columns : List (List (Nat × α))) : Prop where
  underway : Underway u b.dimension [] (.loaded b.dimension columns)
  workspace : u.workspace.Ready b.dimension
  phase : u.phase = .loaded
  pending : u.pending = none
  etas : u.etas = .empty
  threshold : u.sparseThreshold = 0
  addressable : 2 * b.dimension + 2 ≤ addressableWords
  tallies : u.tallies = ⟨0, 0, 0, 0, 0⟩

theorem Filled.working (h : Filled t b columns) (options : t.options = s.options)
    (areas : t.capacity = s.capacityFor b.dimension b.count) (spacious : s.Spacious b) :
    Working t b.dimension [] (.loaded b.dimension columns) := by
  refine h.underway.working h.workspace ?_
  rw [options, areas]
  exact spacious h.addressable (areas ▸ h.underway.addressable)

theorem Cleared.filled (h : Cleared t b.dimension) (holds : b.Holds columns) {a : Active α}
    (shows : a.Shows b.dimension t.capacity.files (.loaded b.dimension columns))
    (fits : b.count ≤ t.capacity.files) : Filled { t with active := a } b columns := by
  have small : columns.flatten.length < UInt64.size := by
    have words : addressableWords < UInt64.size := by decide
    have addressable := h.addressable
    rw [← count_eq holds]
    omega
  exact
    { underway :=
        { dimension := h.dimension
          factors := h.factors.trans Factors.blank_eq_ofStages
          active := shows
          consistent := consistent_ofColumns holds rfl (by simp [columnMaxima]) small
          distinctRows := List.nodup_nil
          distinctCols := List.nodup_nil
          insideRows := by simp
          insideCols := by simp
          addressable := h.addressable
          contained := h.contained.congr rfl rfl }
      workspace := h.dimension ▸ h.prepared.workspace
      phase := h.phase
      pending := h.pending
      etas := h.etas
      threshold := h.threshold
      addressable := h.dimension ▸ h.prepared.addressable
      tallies := h.tallies }

/-- A load fills in the lines and pivots the slack columns, or notes that the areas are too small for
the lines. -/
theorem load_by_filling {B : Breach → Prop} {Q : SparseFactorization α → Prop} (h : Prepared s)
    (holds : b.Holds columns) (spacious : s.Spacious b)
    (broken : ¬s.Addressable b.dimension b.count → B .capacityOverflow)
    (full : ∀ t, Prepared t → t.options = s.options → t.dimension = b.dimension →
      t.phase = .loaded → t.factors = .ofStages b.dimension [] → t.pending = some .outOfMemory →
      Q t)
    (slacks : ∀ u, u.options = s.options → u.capacity = s.capacityFor b.dimension b.count →
      Filled u b columns → Ends (fun _ t => Q t) (fun _ _ => False) (orPending pivotSlacks u)) :
    EndsOr B (fun _ t => Q t) (fun _ _ => False) (load b s) := by
  unfold load
  refine (prepare_endsOr h b.dimension b.count broken).bind ?_
  rintro _ u ⟨cleared, options, areas⟩
  have ready := cleared.prepared
  have dimension := cleared.dimension
  have blank := cleared.factors.trans Factors.blank_eq_ofStages
  rw [get_bind]
  dsimp only
  split
  · rw [bind_of_ok (log_run _ _)]
    exact full _ ⟨ready.workspace, ready.sized, ready.addressable⟩ options dimension cleared.phase
      blank rfl
  · rename_i enough
    have spare := loadingSpare_eq options dimension areas
    have roomy : LineFile.Roomy (u.loadingSpare b.count) b.dimension u.capacity.files := by
      rw [spare, areas]
      exact spacious.roomy (dimension ▸ ready.addressable) (areas ▸ cleared.addressable)
    have rows : ∀ i, (keys ((Compressed.transposed columns b.dimension).getD i [])).length ≤
        b.dimension := fun i => by
      rw [List.length_map]
      exact length_bucket_le holds rfl i
    refine (orPending_ends (fillFiles_ends holds rfl
      (ActiveView.fills_of_roomy roomy (length_column_le holds rfl))
      (ActiveView.fills_of_roomy roomy rows) trivial trivial cleared.shows
      (ready.sized.trans dimension))).or.bind ?_
    rintro filled u' (⟨rfl, a, rfl, shows, -, -⟩ | ⟨rfl, e, _, ⟨few, a, rfl, sized⟩, rfl⟩)
    · have filled := cleared.filled holds shows (Nat.le_of_not_lt enough)
      refine (slacks { u with active := a } options areas filled).or.bind ?_
      exact fun _ _ reached => reached
    · obtain rfl : e = .outOfMemory := few.elim id id
      exact full _ ⟨ready.workspace, sized.trans dimension.symm, ready.addressable⟩ options dimension
        cleared.phase blank rfl

/-- A load leaves the basis ready to be factorized, or the note that the areas are too small for it,
unless they cannot be addressed. -/
theorem load_endsOr {B : Breach → Prop} (h : Prepared s) (holds : b.Holds columns)
    (spacious : s.Spacious b)
    (broken : ¬s.Addressable b.dimension b.count → B .capacityOverflow) :
    EndsOr B (fun _ t => Prepared t ∧ t.options = s.options ∧ t.dimension = b.dimension ∧
        t.phase = .loaded ∧ Recorded t ∧ (Loaded t columns ∨ t.pending = some .outOfMemory))
      (fun _ _ => False) (load b s) := by
  refine load_by_filling h holds spacious broken ?_ ?_
  · intro t prepared options dimension phase factors pending
    exact ⟨prepared, options, dimension, phase, recorded_of_stages distinct_nil dimension factors,
      .inr pending⟩
  · intro u options areas filled
    have whole := filled.working options areas spacious
    refine (orPending_ends (pivotSlacks_ends whole)).mono ?_ fun _ _ => id
    rintro _ t (⟨rfl, more, w, working, setup, chain⟩ | ⟨rfl, e, u', failed, rfl⟩)
    · have dimension := (dimension_of_setup setup).trans whole.dimension
      have phase : t.phase = .loaded := (congrArg (·.phase) setup).trans filled.phase
      have addressable : 2 * t.dimension + 2 ≤ addressableWords := dimension ▸ filled.addressable
      refine ⟨⟨?_, ?_, addressable⟩, (options_of_setup setup).trans options, dimension, phase,
        recorded_of_stages working.distinct dimension working.factors, .inl ?_⟩
      · exact dimension ▸ working.workspace
      · exact ((congrArg Array.size working.active.colMax).trans
          working.consistent.sized).trans dimension.symm
      · exact
          { phase := phase
            pending := (congrArg (·.pending) setup).trans filled.pending
            etas := (congrArg (·.etas) setup).trans filled.etas
            threshold := (congrArg (·.sparseThreshold) setup).trans filled.threshold
            addressable := addressable
            working := by
              rw [dimension, options_of_setup setup]
              exact ⟨_, more, w, initial_loaded, chain, working⟩ }
    · obtain ⟨rest, rfl, setup, workspace, size, distinct, factors⟩ := failed
      have dimension := (dimension_of_setup setup).trans whole.dimension
      refine ⟨⟨?_, ?_, ?_⟩, (options_of_setup setup).trans options, dimension,
        (congrArg (·.phase) setup).trans filled.phase,
        recorded_of_stages distinct dimension factors, .inr rfl⟩
      · exact dimension ▸ workspace
      · exact size.trans dimension.symm
      · exact dimension ▸ filled.addressable

theorem load_ends (h : Prepared s) (holds : b.Holds columns) (spacious : s.Spacious b) :
    EndsOr Overflows (fun _ t => Prepared t ∧ t.options = s.options ∧ t.dimension = b.dimension ∧
        t.phase = .loaded ∧ Recorded t ∧ (Loaded t columns ∨ t.pending = some .outOfMemory))
      (fun _ _ => False) (load b s) :=
  load_endsOr h holds spacious fun _ => rfl

end SparseFactorization

end SimplexBasis
