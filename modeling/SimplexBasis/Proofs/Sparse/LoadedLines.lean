import SimplexBasis.Proofs.Exact
import SimplexBasis.Proofs.Sparse.AmpleAreas
import SimplexBasis.Proofs.Sparse.SlackColumns

/-!
# Loaded lines

A load fills the files with the lines of the basis, one behind the other and without a compression,
whenever the files hold as many entries as the basis has. Space runs out only for a basis with more
entries, or for the entries that the slack columns move to the upper factor.
-/

set_option linter.unusedSectionVars false

namespace SimplexBasis

/-! ### The lines of a basis -/

/-- The active submatrix holds the matrix with the given columns: its columns as they are given, its
rows in ascending order, every line in the list of its length, and its files as they were filled. -/
structure Active.Mirrors (a : Active ℚ) (m : Nat) (columns : List (List (Nat × ℚ))) : Prop where
  column : ∀ j < m, a.cols.line j = .ok (columns.getD j [])
  row : ∀ i < m, ∃ line, a.rows.line i = .ok line ∧ line.Pairwise (· < ·) ∧
    ∀ j, j ∈ line ↔ i ∈ keys (columns.getD j [])
  columnsListed : ∀ n < m + 2, ∃ list, a.colCounts.toList n = .ok list ∧ list.Pairwise (· < ·) ∧
    ∀ j, j ∈ list ↔ j < m ∧ a.cols.length j = .ok n
  rowsListed : ∀ n < m + 2, ∃ list, a.rowCounts.toList n = .ok list ∧ list.Pairwise (· < ·) ∧
    ∀ i, i ∈ list ↔ i < m ∧ a.rows.length i = .ok n
  maxima : ∀ j < m, ∃ x, a.colMax[j]? = some x ∧ (∀ e ∈ columns.getD j [], |e.2| ≤ x) ∧
    (x = 0 ∨ ∃ e ∈ columns.getD j [], |e.2| = x)
  counted : a.nonzeros = columns.flatten.length
  uncompressed : a.cols.compressions = 0 ∧ a.rows.compressions = 0

namespace SparseFactorization

section Filling

variable {b : BasisMatrix ℚ} {columns : List (List (Nat × ℚ))} {a : Active ℚ} {m capacity : Nat}

theorem mirrors_of_shows (holds : b.Holds columns) (dimension : b.dimension = m)
    (shows : a.Shows m capacity (.loaded m columns))
    (uncompressed : a.cols.compressions = 0 ∧ a.rows.compressions = 0) : a.Mirrors m columns where
  column j hj := shows.cols.line_eq hj
  row i hi := by
    have length : columns.length = m := holds.length.trans dimension
    refine ⟨_, shows.rows.line_eq hi, ?_, fun j => ?_⟩
    · change (keys ((Compressed.transposed columns m).getD i [])).Pairwise _
      rw [transposed_getD hi]
      exact Compressed.pairwise_bucket holds.distinct
    · exact mem_keys_transposed hi
  columnsListed n hn := by
    refine ⟨_, shows.colLists.toList_eq (by rwa [shows.colLength]), ?_, fun j => ?_⟩
    · exact List.pairwise_lt_range.filter _
    · refine ActiveView.mem_listedBy.trans (and_congr_right fun hj => ?_)
      rw [shows.cols.length_eq hj, Except.ok.injEq]
      rfl
  rowsListed n hn := by
    refine ⟨_, shows.rowLists.toList_eq (by rwa [shows.rowLength]), ?_, fun i => ?_⟩
    · exact List.pairwise_lt_range.filter _
    · refine ActiveView.mem_listedBy.trans (and_congr_right fun hi => ?_)
      rw [shows.rows.length_eq hi, Except.ok.injEq]
      change _ ↔ (keys _).length = n
      rw [List.length_map]
  maxima j hj := by
    refine ⟨largestOf (columns.getD j []), ?_, fun e => le_largestOf, exists_largest _⟩
    rw [shows.colMax]
    simp [ActiveView.loaded, ActiveView.ofColumns, columnMaxima, hj]
  counted := shows.nonzeros
  uncompressed := uncompressed

end Filling

/-! ### The rows of the slack columns -/

section Slacks

variable {α : Type} [Scalar α] {s t u : SparseFactorization α} {m i j k : Nat} {slack x : α}
  {columns : List (List (Nat × α))} {column : List (Nat × α)} {rows : List Nat}
  {v w : ActiveView α} {more : List (Stage α)}

/-- A column with a single entry outside `rows` is a slack column if that entry has the magnitude
`slack`. It adds the row of this entry. -/
def withSlackRow (slack : α) (rows : List Nat) (column : List (Nat × α)) : List Nat :=
  match column.filter fun e => e.1 ∉ rows with
  | [(i, x)] => if Scalar.abs x == slack then rows ++ [i] else rows
  | _ => rows

/-- The rows of the slack columns, in the order in which the columns are taken. -/
def slackRows (slack : α) (columns : List (List (Nat × α))) : List Nat :=
  if slack == 0 then [] else columns.foldl (withSlackRow slack) []

/-- The number of entries that stand beside a slack in its row. -/
def slackEntries (slack : α) (columns : List (List (Nat × α))) : Nat :=
  ((slackRows slack columns).map fun i => (keys columns.flatten).count i - 1).sum

theorem withSlackRow_prefix : rows <+: withSlackRow slack rows column := by
  unfold withSlackRow
  split
  · split
    · exact List.prefix_append ..
    · exact List.prefix_rfl
  · exact List.prefix_rfl

theorem withSlackRow_distinct (inside : ∀ i ∈ keys column, i < m)
    (h : rows.Nodup ∧ ∀ i ∈ rows, i < m) : (withSlackRow slack rows column).Nodup ∧
      ∀ i ∈ withSlackRow slack rows column, i < m := by
  unfold withSlackRow
  split
  · rename_i i x single
    have member : (i, x) ∈ column.filter fun e => e.1 ∉ rows := by
      rw [single]
      exact List.mem_singleton_self _
    obtain ⟨here, fresh⟩ := List.mem_filter.mp member
    have hi := inside i (List.mem_map_of_mem (f := Prod.fst) here)
    split
    · refine ⟨h.1.append (List.nodup_singleton i) ?_, ?_⟩
      · simpa using fresh
      · simpa [or_imp, forall_and] using ⟨h.2, hi⟩
    · exact h
  · exact h

theorem slackRows_distinct (slack : α) (inside : ∀ column ∈ columns, ∀ i ∈ keys column, i < m) :
    (slackRows slack columns).Nodup ∧ ∀ i ∈ slackRows slack columns, i < m := by
  have none : ([] : List Nat).Nodup ∧ ∀ i ∈ ([] : List Nat), i < m := by simp
  unfold slackRows
  split
  · exact none
  · refine foldl_invariant (fun _ (rows : List Nat) => rows.Nodup ∧ ∀ i ∈ rows, i < m) none ?_
    intro done column rest rows split h
    exact withSlackRow_distinct (inside column (split ▸ by simp)) h

/-- The rows of the slack columns among the first `k` columns. -/
def slackRowsBefore (slack : α) (column : Nat → List (Nat × α)) (k : Nat) : List Nat :=
  ((List.range k).map column).foldl (withSlackRow slack) []

theorem slackRowsBefore_succ (slack : α) (column : Nat → List (Nat × α)) (k : Nat) :
    slackRowsBefore slack column (k + 1) =
      withSlackRow slack (slackRowsBefore slack column k) (column k) := by
  unfold slackRowsBefore
  rw [List.range_succ, List.map_append, List.foldl_append]
  rfl

theorem slackRowsBefore_prefix {column : Nat → List (Nat × α)} (le : k ≤ m) :
    slackRowsBefore slack column k <+: slackRowsBefore slack column m := by
  induction le with
  | refl => exact List.prefix_rfl
  | step _ ih => exact slackRowsBefore_succ slack column _ ▸ ih.trans withSlackRow_prefix

/-- The number of entries beside one in each of the given rows. -/
def besides (v : ActiveView α) (rows : List Nat) : Nat :=
  (rows.map fun i => (v.rows i).length - 1).sum

theorem besides_concat (rows : List Nat) (i : Nat) :
    besides v (rows ++ [i]) = besides v rows + ((v.rows i).length - 1) := by
  simp [besides]

theorem besides_le {rows' : List Nat} (front : rows <+: rows') : besides v rows ≤ besides v rows' :=
  sum_le_of_sublist (front.sublist.map _)

theorem count_upper (chain : Singly (· = .column) m v more w) (h : v.Consistent m [] []) :
    (Factors.ofStages m more).upper.count = besides v (more.map Stage.row) := by
  induction chain with
  | start => rfl
  | column chain _ hj only ih =>
    rw [Factors.count_upper_concat, ih, chain.length_upper h (by simp) hj only, List.map_append]
    exact (besides_concat ..).symm
  | row _ kind => cases kind

/-- The slack columns among the first `k` columns are pivoted. -/
structure Passed (s : SparseFactorization α) (m : Nat) (v : ActiveView α) (k : Nat)
    (rows : List Nat) (more : List (Stage α)) (w : ActiveView α) (t : SparseFactorization α) :
    Prop where
  slackened : Slackened s m [] v more w t
  rows : more.map Stage.row = rows
  cols : ∀ j ∈ more.map Stage.col, j < k

theorem Passed.upper (h : Passed s m v k rows more w t) (consistent : v.Consistent m [] []) :
    t.factors.upper.count = besides v rows := by
  have factors := h.slackened.underway.factors
  rw [List.nil_append] at factors
  rw [factors, count_upper h.slackened.chain consistent, h.rows]

theorem Passed.pivotSlack (h : Passed s m v k rows more w t) (consistent : v.Consistent m [] [])
    (hk : k < m) :
    Ends (fun _ t' => ∃ more' w', Passed s m v (k + 1)
        (withSlackRow (Scalar.abs s.options.slackValue) rows (v.cols k)) more' w' t')
      (fun e _ => e = .outOfMemory ∧ s.capacity.upper <
        besides v (withSlackRow (Scalar.abs s.options.slackValue) rows (v.cols k)))
      (SparseFactorization.pivotSlack (Scalar.abs s.options.slackValue) k t) := by
  have here := h.slackened
  have free : k ∉ more.map Stage.col := fun member => Nat.lt_irrefl k (h.cols k member)
  -- The order of the entries may have changed, but a single entry has only one.
  have left := here.chain.cols_perm consistent hk free
  rw [h.rows] at left
  by_cases found : ∃ i x, w.cols k = [(i, x)] ∧
      (Scalar.abs x == Scalar.abs s.options.slackValue) = true
  · obtain ⟨i, x, only, slack⟩ := found
    have single : (v.cols k).filter (fun e => e.1 ∉ rows) = [(i, x)] :=
      List.perm_singleton.mp (only ▸ left.symm)
    have next : withSlackRow (Scalar.abs s.options.slackValue) rows (v.cols k) = rows ++ [i] := by
      simp only [withSlackRow, single, slack, if_true]
    rw [next]
    refine (here.take hk only slack).mono (fun _ t' taken => ⟨_, _, taken, ?_, ?_⟩) ?_
    · rw [List.map_append, h.rows]
      rfl
    · intro j member
      rcases List.mem_append.mp (List.map_append ▸ member) with earlier | last
      · exact Nat.lt_succ_of_lt (h.cols j earlier)
      · rw [List.mem_singleton.mp last]
        exact Nat.lt_succ_self k
    · rintro e _ ⟨rfl, rfl, lacking⟩
      have areas := capacity_of_setup here.setup
      have lower := here.underway.contained.lower
      refine ⟨rfl, ?_⟩
      rw [besides_concat, ← h.upper consistent,
        ← here.chain.length_upper consistent (by simp) hk only, ← areas]
      refine lacking.resolve_left (Nat.not_lt_of_le ?_)
      simpa [ActiveView.stageAt, only] using lower
  · have same : withSlackRow (Scalar.abs s.options.slackValue) rows (v.cols k) = rows := by
      unfold withSlackRow
      split
      · rename_i i x single
        have only : w.cols k = [(i, x)] := List.perm_singleton.mp (single ▸ left)
        rw [if_neg fun slack => found ⟨i, x, only, slack⟩]
      · rfl
    rw [here.pass hk fun i x only slack => found ⟨i, x, only, slack⟩, same]
    exact ⟨more, w, here, h.rows, fun j member => Nat.lt_succ_of_lt (h.cols j member)⟩

/-- The slack columns are taken in order until space runs out for the entries beside them. -/
theorem Underway.pivotSlacks_passed (h : Underway s m [] v) :
    Ends (fun _ t => ∃ more w, Passed s m v m
        (slackRows (Scalar.abs s.options.slackValue) ((List.range m).map v.cols)) more w t)
      (fun e _ => e = .outOfMemory ∧ s.capacity.upper <
        besides v (slackRows (Scalar.abs s.options.slackValue) ((List.range m).map v.cols)))
      (SparseFactorization.pivotSlacks s) := by
  have consistent : v.Consistent m [] [] := h.consistent
  have first (k : Nat) : Passed s m v k [] [] v s := ⟨.refl h, rfl, by simp⟩
  unfold slackRows SparseFactorization.pivotSlacks
  rw [get_bind]
  split
  · exact ⟨[], v, first m⟩
  · rw [get_bind, h.dimension]
    change Ends (fun _ t => ∃ more w, Passed s m v m
      (slackRowsBefore (Scalar.abs s.options.slackValue) v.cols m) more w t) _ _
    refine Ends.forM_range (fun k t => ∃ more w, Passed s m v k
      (slackRowsBefore (Scalar.abs s.options.slackValue) v.cols k) more w t) ⟨[], v, first 0⟩ ?_
    rintro k hk t ⟨more, w, here⟩
    rw [slackRowsBefore_succ]
    refine (here.pivotSlack consistent hk).mono (fun _ _ => id) fun e _ ⟨full, tight⟩ =>
      ⟨full, Nat.lt_of_lt_of_le tight (besides_le ?_)⟩
    rw [← slackRowsBefore_succ]
    exact slackRowsBefore_prefix hk

end Slacks

/-! ### A load -/

section Load

variable {s t u : SparseFactorization ℚ} {b : BasisMatrix ℚ} {columns : List (List (Nat × ℚ))}

theorem length_row_loaded (holds : b.Holds columns) (i : Nat) :
    ((ActiveView.loaded b.dimension columns).rows i).length = (keys columns.flatten).count i := by
  change (keys ((Compressed.transposed columns b.dimension).getD i [])).length = _
  rw [List.length_map]
  by_cases hi : i < b.dimension
  · rw [transposed_getD hi, Compressed.length_bucket, Compressed.map_fst_tagged]
  · have outside : i ∉ keys columns.flatten := by
      intro key
      obtain ⟨e, member, rfl⟩ := List.mem_map.mp key
      obtain ⟨column, here, entry_⟩ := List.mem_flatten.mp member
      exact hi (holds.inside column here _ (List.mem_map_of_mem entry_))
    rw [List.count_eq_zero.mpr outside]
    simp [Compressed.transposed, Nat.le_of_not_lt hi]

theorem cols_loaded (holds : b.Holds columns) :
    (List.range b.dimension).map (ActiveView.loaded b.dimension columns).cols = columns := by
  refine List.ext_getElem (by simp [holds.length]) fun j hj hj' => ?_
  simp [ActiveView.loaded, ActiveView.ofColumns, hj']

theorem slackEntries_le (holds : b.Holds columns) (slack : ℚ) :
    slackEntries slack columns ≤ b.count := by
  obtain ⟨distinct, inside⟩ := slackRows_distinct slack holds.inside
  have bound := sum_length_le_entryCount distinct inside (ActiveView.loaded b.dimension columns).rows
  have total : entryCount b.dimension (ActiveView.loaded b.dimension columns).rows = b.count :=
    (entryCount_rows holds).trans (count_eq holds).symm
  simp only [length_row_loaded holds, total] at bound
  refine Nat.le_trans (List.sum_le_sum fun i _ => ?_) bound
  exact Nat.sub_le _ _

/-- Space runs out for the slack columns only if their rows have too many other entries. -/
theorem Filled.pivotSlacks (h : Filled u b columns) (holds : b.Holds columns) :
    Ends (fun _ t => t.pending = none ∧
        t.factors.upper.count = slackEntries (Scalar.abs u.options.slackValue) columns ∧
        slackEntries (Scalar.abs u.options.slackValue) columns ≤ u.capacity.upper)
      (fun e _ => e = .outOfMemory ∧
        u.capacity.upper < slackEntries (Scalar.abs u.options.slackValue) columns)
      (SparseFactorization.pivotSlacks u) := by
  have beside (rows : List Nat) : besides (.loaded b.dimension columns) rows =
      (rows.map fun i => (keys columns.flatten).count i - 1).sum := by
    simp only [besides, length_row_loaded holds]
  have ends := h.underway.pivotSlacks_passed
  rw [cols_loaded holds] at ends
  refine ends.mono ?_ fun e _ ⟨full, tight⟩ =>
    ⟨full, tight.trans_eq (beside _)⟩
  rintro _ t ⟨more, w, passed⟩
  have setup := passed.slackened.setup
  have moved := (passed.upper h.underway.consistent).trans (beside _)
  refine ⟨(congrArg (·.pending) setup).trans h.pending, moved, ?_⟩
  have contained := passed.slackened.underway.contained.upper
  rw [moved, capacity_of_setup setup] at contained
  exact contained

section Pending

variable (prepared : Prepared s) (holds : b.Holds columns) (stretch : 0 ≤ s.options.stretch)
  (addressable : s.Addressable b.dimension b.count)
  (words : Scalar.truncNat (Scalar.ofNat b.count * (1 + s.options.stretch)) +
    b.dimension * s.options.pad < UInt64.size)

include prepared holds stretch addressable words

/-- What a load leaves behind: the entries beside the slack columns in the upper factor, or a note
that space ran out for the lines or for these entries. -/
theorem load_pending :
    Ends (fun _ t =>
        (t.pending = if (s.capacityFor b.dimension b.count).files < b.count ∨
            (s.capacityFor b.dimension b.count).upper <
              slackEntries (Scalar.abs s.options.slackValue) columns
          then some .outOfMemory else none) ∧
        (t.pending = none → t.factors.upper.count =
          slackEntries (Scalar.abs s.options.slackValue) columns))
      (fun _ _ => False) (load b s) := by
  refine load_by_room stretch addressable words holds prepared (fun few t pending => ?_)
    fun u options areas fits filled => ?_
  · rw [if_pos (.inl few), pending]
    exact ⟨rfl, nofun⟩
  · rw [← areas, ← options]
    refine (orPending_ends (filled.pivotSlacks holds)).mono ?_ fun _ _ => id
    rintro _ t (⟨-, pending, moved, room⟩ | ⟨-, e, _, ⟨rfl, tight⟩, rfl⟩)
    · rw [if_neg (not_or.mpr ⟨Nat.not_lt_of_le fits, Nat.not_lt_of_le room⟩)]
      exact ⟨pending, fun _ => moved⟩
    · rw [if_pos (.inr tight)]
      exact ⟨rfl, nofun⟩

/-- The upper area is as large as the files, so that there is always room for the entries beside the
slack columns: space runs out for a basis with too many entries, and for no other. -/
theorem load_pending_eq :
    Ends (fun _ t => t.pending = if (s.capacityFor b.dimension b.count).files < b.count
        then some .outOfMemory else none)
      (fun _ _ => False) (load b s) := by
  refine (load_pending prepared holds stretch addressable words).mono ?_ fun _ _ => id
  rintro _ t ⟨pending, -⟩
  have beside := slackEntries_le holds (Scalar.abs s.options.slackValue)
  have same : (s.capacityFor b.dimension b.count).upper =
      (s.capacityFor b.dimension b.count).files := rfl
  simp only [pending, same, or_iff_left_of_imp fun full => Nat.lt_of_lt_of_le full beside]

end Pending

/-- Loading is faithful. In every state that calls leave behind (`Prepared`), whatever the options and
hints are, the files are filled with the lines of the basis, without a compression, as long as they
have room for its entries. A load notes that space ran out only for want of this room, or of room
for the entries beside the slack columns. -/
theorem load_faithful (prepared : Prepared s) (holds : b.Holds columns)
    (stretch : 0 ≤ s.options.stretch) (addressable : s.Addressable b.dimension b.count)
    (words : Scalar.truncNat (Scalar.ofNat b.count * (1 + s.options.stretch)) +
      b.dimension * s.options.pad < UInt64.size) :
    ∃ u t, prepare b.dimension b.count s = .ok () u ∧
      u.capacity = s.capacityFor b.dimension b.count ∧
      (b.count ≤ u.capacity.files → ∃ a, fillFiles b u = .ok () { u with active := a } ∧
        a.Mirrors b.dimension columns) ∧
      load b s = .ok () t ∧
      (t.pending = if u.capacity.files < b.count ∨ u.capacity.upper <
          slackEntries (Scalar.abs s.options.slackValue) columns
        then some .outOfMemory else none) ∧
      (t.pending = none →
        t.factors.upper.count = slackEntries (Scalar.abs s.options.slackValue) columns) := by
  have first := prepare_endsOr (B := fun _ => False) prepared b.dimension b.count
    fun large => large addressable
  obtain ⟨_, u, begun, cleared, options, areas⟩ := first.ends.exists_ok
  obtain ⟨_, t, loaded, pending, moved⟩ :=
    (load_pending prepared holds stretch addressable words).exists_ok
  rw [← areas] at pending
  refine ⟨u, t, begun, areas, fun fits => ?_, loaded, pending, moved⟩
  obtain ⟨a, run, shows, uncompressed⟩ :=
    cleared.fillFiles stretch addressable words holds options areas fits
  exact ⟨a, run, mirrors_of_shows holds rfl shows uncompressed⟩

/-- The first column is a slack column; with its row, the second one is, and with both rows the last
one has one entry left. -/
def stackedColumns : List (List (Nat × ℚ)) := [[(1, 1)], [(0, -1), (1, 5)], [(2, 3), (0, 4)]]

/-- The basis with these columns. -/
def stacked : BasisMatrix ℚ := ⟨3, .ofLines stackedColumns⟩

theorem load_faithful_stacked : ∃ s u t : SparseFactorization ℚ,
    allocate 3 0 5 (new .standard) = .ok () s ∧ prepare 3 5 s = .ok () u ∧ u.capacity.files = 5 ∧
    (∃ a, fillFiles stacked u = .ok () { u with active := a } ∧ a.Mirrors 3 stackedColumns) ∧
    load stacked s = .ok () t ∧ t.pending = none ∧ t.factors.upper.count = 2 := by
  obtain ⟨_, s, allocated, check⟩ := @exists_ok_of_check _ _ (allocate 3 0 5)
    (new (.standard : Options ℚ)) (fun _ s => decide (s.Addressable 3 5 ∧ 0 ≤ s.options.stretch ∧
      Scalar.truncNat (Scalar.ofNat 5 * (1 + s.options.stretch)) + 3 * s.options.pad < UInt64.size ∧
      (s.capacityFor 3 5).files = 5 ∧ (s.capacityFor 3 5).upper = 5 ∧
      slackEntries (Scalar.abs s.options.slackValue) stackedColumns = 2)) (by decide +kernel)
  obtain ⟨addressable, stretch, words, files, upper, beside⟩ := of_decide_eq_true check
  have prepared := ((allocate_ends 3 0 5 (new (.standard : Options ℚ))).result allocated).1
  have holds : stacked.Holds stackedColumns :=
    ⟨rfl, rfl, by decide +kernel, by decide +kernel⟩
  have count : stacked.count = 5 := by decide +kernel
  obtain ⟨u, t, begun, areas, fills, loaded, pending, moved⟩ :=
    load_faithful prepared holds stretch (count ▸ addressable) (count ▸ words)
  rw [count] at begun areas fills pending
  have files : u.capacity.files = 5 := (congrArg Capacity.files areas).trans files
  have upper : u.capacity.upper = 5 := (congrArg Capacity.upper areas).trans upper
  rw [files, upper, beside] at pending
  exact ⟨s, u, t, allocated, begun, files, fills files.ge, loaded, pending,
    (moved pending).trans beside⟩

end Load

end SparseFactorization

end SimplexBasis
