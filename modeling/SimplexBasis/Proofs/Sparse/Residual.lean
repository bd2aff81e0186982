import SimplexBasis.Proofs.Exact
import SimplexBasis.Proofs.Sparse.Maxima

/-!
# What pivots account for

Without rounding, a pivot takes the product of its column of the lower and its row of the upper factor
out of the active submatrix, apart from entries that do not exceed the tolerance. A chain of pivots
splits a matrix into the products of its stages, the rest and an error that no row or column collects
more often than it has been eliminated.
-/

set_option linter.unusedSectionVars false

namespace SimplexBasis

variable {v w : ActiveView ℚ} {m i j r c : Nat} {x tolerance : ℚ} {rowsDone colsDone : List Nat}
  {stages front more : List (Stage ℚ)}

/-- Rational magnitudes are compared in their linear order. -/
instance : LawfulMagnitudes ℚ where
  max_right_comm a x y := by
    simp only [scalar_max]
    exact max_right_comm _ _ _
  max_of_not_le a x small := by
    rw [scalar_max] at small ⊢
    exact max_eq_left (le_of_not_ge fun le => small (max_le le le_rfl))

namespace Stage

def lowerAt (st : Stage ℚ) (i : Nat) : ℚ := if i = st.row then 1 else valueAt st.lower i

def upperAt (st : Stage ℚ) (j : Nat) : ℚ := if j = st.col then st.pivot else valueAt st.upper j

end Stage

namespace ActiveView

def value {α : Type} [Scalar α] (v : ActiveView α) (i j : Nat) : α := valueAt (v.cols j) i

theorem SameEntries.value (same : v.SameEntries w) : w.value i j = v.value i j := by
  unfold ActiveView.value
  rw [same.cols]

theorem valueAt_stageAt_lower (other : i ≠ r) :
    valueAt (v.stageAt r c x).lower i = v.value i c / x := by
  simp only [stageAt]
  rw [valueAt_map (fun y => y / x) (zero_div x), valueAt_filter fun k => k != r]
  simp [other, ActiveView.value]

namespace Consistent

section Values

variable (h : v.Consistent m rowsDone colsDone)

include h

theorem value_of_mem (hj : j < m) (member : (i, x) ∈ v.cols j) : v.value i j = x :=
  valueAt_of_mem (h.distinctCols j hj) member

theorem value_of_row_done (hj : j < m) (done : i ∈ rowsDone) : v.value i j = 0 :=
  valueAt_of_not_mem fun member => (h.colRange j hj i member).2 done

theorem value_of_col_done (hj : j < m) (done : j ∈ colsDone) : v.value i j = 0 := by
  unfold ActiveView.value
  rw [h.col_done hj done, valueAt_nil]

theorem value_of_not_mem_row (hi : i < m) (hj : j < m) (absent : j ∉ v.rows i) :
    v.value i j = 0 :=
  valueAt_of_not_mem fun member => absent ((h.agree i hi j hj).mpr member)

/-! ### Stages -/

theorem lowerAt_stageAt (hc : c < m) (pivot : (r, x) ∈ v.cols c) (nonzero : x ≠ 0) :
    (v.stageAt r c x).lowerAt i = v.value i c / x := by
  unfold Stage.lowerAt
  by_cases pivotRow : i = r
  · rw [if_pos (by exact pivotRow), pivotRow, h.value_of_mem hc pivot, div_self nonzero]
  · rw [if_neg (by exact pivotRow)]
    exact valueAt_stageAt_lower pivotRow

theorem upperAt_stageAt (hr : r < m) (hc : c < m) (pivot : (r, x) ∈ v.cols c) (hj : j < m) :
    (v.stageAt r c x).upperAt j = v.value r j := by
  unfold Stage.upperAt
  by_cases pivotCol : j = c
  · rw [if_pos (by exact pivotCol), pivotCol, h.value_of_mem hc pivot]
    rfl
  · rw [if_neg (by exact pivotCol)]
    have distinct : (keys (v.stageAt r c x).upper).Nodup := by
      rw [keys_stageAt_upper]
      exact h.nodup_crossingCols hr
    by_cases member : j ∈ v.rows r
    · refine valueAt_of_mem distinct (List.mem_map.mpr ⟨j, ?_, rfl⟩)
      exact List.mem_filter.mpr ⟨member, by simpa using pivotCol⟩
    · rw [h.value_of_not_mem_row hr hj member]
      refine valueAt_of_not_mem fun key => member ?_
      rw [keys_stageAt_upper] at key
      exact (mem_crossingCols.mp key).2

/-! ### Pivots -/

theorem value_columnPivot (hc : c < m) (only : v.cols c = [(r, x)]) (nonzero : x ≠ 0) (hj : j < m) :
    (v.columnPivot r c).value i j = v.value i j - v.value i c / x * v.value r j := by
  have pivot : (r, x) ∈ v.cols c := by simp [only]
  have keyed : r ∈ keys (v.cols c) := by simp [only]
  have hr := (h.colRange c hc r keyed).1
  have atPivot : v.value r c = x := h.value_of_mem hc pivot
  have offRow : i ≠ r → v.value i c = 0 := fun ne => valueAt_of_not_mem (by simpa [only] using ne)
  have new : (v.columnPivot r c).value i j =
      if j = c then 0 else if i = r then 0 else v.value i j := by
    unfold value
    rw [h.cols_columnPivot hr hj]
    split
    · rfl
    · exact valueAt_withoutKey (h.distinctCols j hj)
  rw [new]
  by_cases pivotRow : i = r
  · subst pivotRow
    rw [atPivot, div_self nonzero, one_mul, sub_self]
    simp
  · rw [offRow pivotRow, zero_div, zero_mul, sub_zero, if_neg pivotRow]
    split
    · rename_i eq
      rw [eq, offRow pivotRow]
    · rfl

theorem value_rowPivot (hr : r < m) (only : v.rows r = [c]) (pivot : (r, x) ∈ v.cols c)
    (nonzero : x ≠ 0) (hj : j < m) :
    (v.rowPivot r c).value i j = v.value i j - v.value i c / x * v.value r j := by
  have hc := (h.rowRange r hr c (by simp [only])).1
  have atPivot : v.value r c = x := h.value_of_mem hc pivot
  unfold value
  rw [cols_rowPivot, Function.update_apply]
  change _ = v.value i j - v.value i c / x * v.value r j
  split
  · rename_i eq
    rw [eq, atPivot, div_mul_cancel₀ _ nonzero, sub_self, valueAt_nil]
  · rename_i ne
    rw [h.value_of_not_mem_row hr hj (by simpa [only] using ne), mul_zero, sub_zero]
    rfl

/-- A rewritten column holds what is left of an entry of a row of the pivot column, unless that does
not exceed the tolerance. -/
theorem mem_newColumn_crossing (hc : c < m) (hj : j < m) (crossing : i ∈ v.crossingRows r c)
    {y : ℚ} : (i, y) ∈ v.newColumn tolerance r c x j ↔
      tolerance < |y| ∧ y = v.value i j - v.value i c / x * v.value r j := by
  have keyed := keys_stageAt_lower v r c x
  have other := (mem_crossingRows.mp crossing).1
  have entry := @ColumnUpdate.mem_updated_of_mem _ _ tolerance (valueAt (v.cols j) r) r
    (v.stageAt r c x).lower (v.cols j) i y (h.distinctCols j hj)
    (keyed ▸ h.nodup_crossingRows hc) (keyed ▸ fun member => (mem_crossingRows.mp member).1 rfl)
    (keyed ▸ crossing)
  have computed : (if i ∈ keys (v.cols j) then
        valueAt (v.cols j) i - valueAt (v.stageAt r c x).lower i * valueAt (v.cols j) r
      else -valueAt (v.stageAt r c x).lower i * valueAt (v.cols j) r) =
      v.value i j - v.value i c / x * v.value r j := by
    rw [valueAt_stageAt_lower other]
    split
    · rfl
    · rename_i fresh
      rw [show v.value i j = 0 from valueAt_of_not_mem fresh, zero_sub, neg_mul]
      rfl
  rwa [computed, scalar_abs] at entry

omit h in
/-- The other entries of a rewritten column stay, except for the one in the pivot row. -/
theorem mem_newColumn_other (fresh : i ∉ v.crossingRows r c) {y : ℚ} :
    (i, y) ∈ v.newColumn tolerance r c x j ↔ i ≠ r ∧ (i, y) ∈ v.cols j :=
  ColumnUpdate.mem_updated_of_not_mem (by rwa [keys_stageAt_lower])

theorem value_newColumn (hr : r < m) (hc : c < m) (pivot : (r, x) ∈ v.cols c) (nonzero : x ≠ 0)
    (hj : j < m) :
    valueAt (v.newColumn tolerance r c x j) i = v.value i j - v.value i c / x * v.value r j ∨
      valueAt (v.newColumn tolerance r c x j) i = 0 ∧
        |v.value i j - v.value i c / x * v.value r j| ≤ tolerance := by
  have distinctNew := @Consistent.nodup_newColumn _ _ _ _ _ _ x tolerance _ _ h hr hc _ hj
  by_cases pivotRow : i = r
  · refine .inl ?_
    subst pivotRow
    rw [h.value_of_mem hc pivot, div_self nonzero, one_mul, sub_self]
    exact valueAt_of_not_mem fun member => (h.mem_newColumn hr hc hj member).2.1 rfl
  by_cases crossing : i ∈ v.crossingRows r c
  · have entry : ∀ y, (i, y) ∈ v.newColumn tolerance r c x j ↔ tolerance < |y| ∧
        y = v.value i j - v.value i c / x * v.value r j := fun _ =>
      h.mem_newColumn_crossing hc hj crossing
    by_cases large : tolerance < |v.value i j - v.value i c / x * v.value r j|
    · exact .inl (valueAt_of_mem distinctNew ((entry _).mpr ⟨large, rfl⟩))
    · refine .inr ⟨valueAt_of_not_mem fun key => ?_, not_lt.mp large⟩
      obtain ⟨⟨_, y⟩, he, rfl⟩ := List.mem_map.mp key
      obtain ⟨big, eq⟩ := (entry y).mp he
      exact large (eq ▸ big)
  · refine .inl ?_
    have absent : i ∉ keys (v.cols c) := fun key => crossing (mem_crossingRows.mpr ⟨pivotRow, key⟩)
    rw [show v.value i c = 0 from valueAt_of_not_mem absent, zero_div, zero_mul, sub_zero]
    by_cases stored : i ∈ keys (v.cols j)
    · obtain ⟨⟨_, y⟩, he, rfl⟩ := List.mem_map.mp stored
      rw [h.value_of_mem hj he]
      exact valueAt_of_mem distinctNew ((mem_newColumn_other crossing).mpr ⟨pivotRow, he⟩)
    · rw [show v.value i j = 0 from valueAt_of_not_mem stored]
      refine valueAt_of_not_mem fun key => stored ?_
      obtain ⟨⟨_, y⟩, he, rfl⟩ := List.mem_map.mp key
      exact List.mem_map_of_mem (f := Prod.fst) ((mem_newColumn_other crossing).mp he).2

theorem value_generalPivot (hr : r < m) (hc : c < m) (pivot : (r, x) ∈ v.cols c) (nonzero : x ≠ 0)
    (hj : j < m) : (v.generalPivot tolerance r c x).value i j =
        v.value i j - v.value i c / x * v.value r j ∨
      (v.generalPivot tolerance r c x).value i j = 0 ∧
        |v.value i j - v.value i c / x * v.value r j| ≤ tolerance := by
  have atPivot : v.value r c = x := h.value_of_mem hc pivot
  by_cases pivotCol : j = c
  · refine .inl ?_
    rw [pivotCol, atPivot, div_mul_cancel₀ _ nonzero, sub_self]
    simp [value, cols_generalPivot]
  · by_cases touched : j ∈ v.crossingCols r c
    · have same : (v.generalPivot tolerance r c x).value i j =
          valueAt (v.newColumn tolerance r c x j) i := by
        simp [value, cols_generalPivot, pivotCol, touched]
      rw [same]
      exact h.value_newColumn hr hc pivot nonzero hj
    · refine .inl ?_
      have outside : j ∉ v.rows r := fun member => touched (mem_crossingCols.mpr ⟨pivotCol, member⟩)
      rw [h.value_of_not_mem_row hr hj outside, mul_zero, sub_zero]
      simp [value, cols_generalPivot, pivotCol, touched]

/-- A pivot reduces every entry by the product of its factors, or drops what is left of it. -/
theorem value_pivotAt (hc : c < m) (pivot : (r, x) ∈ v.cols c) (nonzero : x ≠ 0) (hj : j < m) :
    (v.pivotAt tolerance r c x).value i j =
        v.value i j - v.value i c / x * v.value r j ∨
      (v.pivotAt tolerance r c x).value i j = 0 ∧
        |v.value i j - v.value i c / x * v.value r j| ≤ tolerance := by
  have keyed : r ∈ keys (v.cols c) := List.mem_map_of_mem (f := Prod.fst) pivot
  have hr := (h.colRange c hc r keyed).1
  unfold pivotAt
  split
  · rename_i single
    obtain ⟨e, only⟩ := List.length_eq_one_iff.mp single
    obtain rfl : (r, x) = e := by simpa [only] using pivot
    exact .inl (h.value_columnPivot hc only nonzero hj)
  · split
    · rename_i single
      obtain ⟨k, only⟩ := List.length_eq_one_iff.mp single
      obtain rfl : c = k := by
        have member := (h.agree r hr c hc).mpr keyed
        simpa [only] using member
      exact .inl (h.value_rowPivot hr only pivot nonzero hj)
    · exact h.value_generalPivot hr hc pivot nonzero hj

end Values

end Consistent

/-! ### Nonzero entries -/

def Nonzero (v : ActiveView ℚ) (m : Nat) : Prop := ∀ j < m, ∀ e ∈ v.cols j, e.2 ≠ 0

theorem SameEntries.nonzero (same : v.SameEntries w) (h : v.Nonzero m) : w.Nonzero m := by
  unfold Nonzero
  rwa [same.cols]

theorem nonzero_updated {multipliers old : List (Nat × ℚ)} {u : ℚ} (nonneg : 0 ≤ tolerance)
    (h : ∀ e ∈ old, e.2 ≠ 0) :
    ∀ e ∈ ColumnUpdate.updated tolerance r multipliers u old, e.2 ≠ 0 := by
  have significant : ∀ {i : Nat} {y : ℚ} {e : Nat × ℚ},
      ColumnUpdate.significant tolerance i y = some e → e.2 ≠ 0 := by
    intro i y e eq
    obtain ⟨rfl, large⟩ := ColumnUpdate.significant_key eq
    rw [scalar_abs] at large
    exact abs_pos.mp (lt_of_le_of_lt nonneg large)
  intro e member
  rcases List.mem_append.mp member with member | member
  · obtain ⟨e', he', eq⟩ := List.mem_filterMap.mp member
    unfold ColumnUpdate.lowered at eq
    split at eq
    · cases eq
    · split at eq
      · exact significant eq
      · cases eq
        exact h _ he'
  · obtain ⟨e', -, eq⟩ := List.mem_filterMap.mp member
    unfold ColumnUpdate.filled at eq
    split at eq
    · cases eq
    · exact significant eq

namespace Consistent

theorem nonzero_pivotAt (h : v.Consistent m rowsDone colsDone) (hc : c < m)
    (pivot : (r, x) ∈ v.cols c) (nonneg : 0 ≤ tolerance) (nonzero : v.Nonzero m) :
    (v.pivotAt tolerance r c x).Nonzero m := by
  have keyed : r ∈ keys (v.cols c) := List.mem_map_of_mem (f := Prod.fst) pivot
  have hr := (h.colRange c hc r keyed).1
  intro j hj e member
  unfold pivotAt at member
  split at member
  · rw [h.cols_columnPivot hr hj] at member
    split at member
    · simp at member
    · exact nonzero j hj e ((mem_withoutKey (h.distinctCols j hj)).mp member).2
  · split at member
    · rw [cols_rowPivot, Function.update_apply] at member
      split at member
      · simp at member
      · exact nonzero j hj e member
    · rw [cols_generalPivot] at member
      dsimp only at member
      split at member
      · simp at member
      · split at member
        · exact nonzero_updated nonneg (nonzero j hj) e member
        · exact nonzero j hj e member

end Consistent

end ActiveView

/-! ### Accounts -/

/-- The sum of the products of the stages at a position. -/
def productAt (stages : List (Stage ℚ)) (i j : Nat) : ℚ :=
  (stages.map fun st => st.lowerAt i * st.upperAt j).sum

/-- The number of stages before row `i` or column `j` has its pivot. -/
def reductionsAt (stages : List (Stage ℚ)) (i j : Nat) : Nat :=
  min ((stages.map Stage.row).idxOf i) ((stages.map Stage.col).idxOf j)

/-- The stages and the rest make up the matrix `B`, up to the tolerance for each stage that has
reduced an entry. -/
def Accounts (tolerance : ℚ) (B : Nat → Nat → ℚ) (m : Nat) (stages : List (Stage ℚ))
    (rest : Nat → Nat → ℚ) : Prop :=
  ∀ i < m, ∀ j < m,
    |B i j - rest i j - productAt stages i j| ≤ reductionsAt stages i j * tolerance

theorem productAt_concat (stages : List (Stage ℚ)) (st : Stage ℚ) (i j : Nat) :
    productAt (stages ++ [st]) i j = productAt stages i j + st.lowerAt i * st.upperAt j := by
  simp [productAt]

theorem reductionsAt_mono (front more : List (Stage ℚ)) (i j : Nat) :
    reductionsAt front i j ≤ reductionsAt (front ++ more) i j := by
  have mono : ∀ (xs ys : List Nat) (k : Nat), xs.idxOf k ≤ (xs ++ ys).idxOf k := by
    intro xs ys k
    rw [List.idxOf_append]
    split
    · exact Nat.le_refl _
    · exact Nat.le_trans List.idxOf_le_length (Nat.le_add_left _ _)
  unfold reductionsAt
  rw [List.map_append, List.map_append]
  exact min_le_min (mono _ _ i) (mono _ _ j)

theorem reductionsAt_concat_of_fresh {st : Stage ℚ} (row : i ∉ (stages ++ [st]).map Stage.row)
    (col : j ∉ (stages ++ [st]).map Stage.col) :
    reductionsAt (stages ++ [st]) i j = reductionsAt stages i j + 1 := by
  have row' : i ∉ stages.map Stage.row := fun h => row (by simp_all)
  have col' : j ∉ stages.map Stage.col := fun h => col (by simp_all)
  unfold reductionsAt
  rw [List.idxOf_eq_length row, List.idxOf_eq_length col, List.idxOf_eq_length row',
    List.idxOf_eq_length col']
  simp

namespace Accounts

variable {B rest rest' : Nat → Nat → ℚ} {st : Stage ℚ}

theorem of_eq (h : Accounts tolerance B m stages rest)
    (same : ∀ i < m, ∀ j < m, rest i j = rest' i j) : Accounts tolerance B m stages rest' := by
  intro i hi j hj
  rw [← same i hi j hj]
  exact h i hi j hj

/-- One more stage, which reduces what is left of a position by its product, up to the tolerance
where neither the row nor the column has a pivot. -/
theorem concat (h : Accounts tolerance B m stages rest) (nonneg : 0 ≤ tolerance)
    (exact_ : ∀ i < m, ∀ j < m, i ∈ (stages ++ [st]).map Stage.row ∨
      j ∈ (stages ++ [st]).map Stage.col → rest' i j = rest i j - st.lowerAt i * st.upperAt j)
    (close : ∀ i < m, ∀ j < m, |rest i j - st.lowerAt i * st.upperAt j - rest' i j| ≤ tolerance) :
    Accounts tolerance B m (stages ++ [st]) rest' := by
  intro i hi j hj
  have before := h i hi j hj
  have split : B i j - rest' i j - productAt (stages ++ [st]) i j =
      (B i j - rest i j - productAt stages i j) +
        (rest i j - st.lowerAt i * st.upperAt j - rest' i j) := by
    rw [productAt_concat]
    ring
  rw [split]
  by_cases done : i ∈ (stages ++ [st]).map Stage.row ∨ j ∈ (stages ++ [st]).map Stage.col
  · rw [exact_ i hi j hj done, sub_self, add_zero]
    refine before.trans (mul_le_mul_of_nonneg_right ?_ nonneg)
    exact_mod_cast reductionsAt_mono stages [st] i j
  · obtain ⟨row, col⟩ := not_or.mp done
    rw [reductionsAt_concat_of_fresh row col]
    calc _ ≤ _ := abs_add_le _ _
      _ ≤ reductionsAt stages i j * tolerance + tolerance := add_le_add before (close i hi j hj)
      _ = _ := by push_cast; ring

end Accounts

/-! ### Chains -/

namespace Pivoting

variable {B : Nat → Nat → ℚ}

theorem nonzero (chain : Pivoting tolerance m front v more w) (nonneg : 0 ≤ tolerance)
    (h : v.Nonzero m) : w.Nonzero m ∧ ∀ st ∈ more, st.pivot ≠ 0 := by
  induction chain with
  | start => exact ⟨h, by simp⟩
  | relist _ same _ ih => exact ⟨same.nonzero ih.1, ih.2⟩
  | pivot _ consistent inside member ih =>
    refine ⟨consistent.nonzero_pivotAt inside member nonneg ih.1, fun st hst => ?_⟩
    rcases List.mem_append.mp hst with before | last
    · exact ih.2 st before
    · rw [List.mem_singleton.mp last]
      exact ih.1 _ inside _ member

theorem accounts (chain : Pivoting tolerance m front v more w) (nonneg : 0 ≤ tolerance)
    (pivots : ∀ st ∈ more, st.pivot ≠ 0) (h : Accounts tolerance B m front v.value) :
    Accounts tolerance B m (front ++ more) w.value := by
  induction chain with
  | start => simpa using h
  | relist _ same _ ih =>
    intro i hi j hj
    rw [same.value]
    exact ih pivots i hi j hj
  | @pivot before mid chain consistent r c y inside member ih =>
    have nonzero : y ≠ 0 := pivots (mid.stageAt r c y) (by simp)
    have keyed : r ∈ keys (mid.cols c) := List.mem_map_of_mem (f := Prod.fst) member
    have hr := (consistent.colRange c inside r keyed).1
    have atPivot : mid.value r c = y := consistent.value_of_mem inside member
    have reduced := fun i j (hj : j < m) => @ActiveView.Consistent.value_pivotAt _ _ i _ _ _ _ tolerance
      _ _ consistent inside member nonzero hj
    have product : ∀ i, ∀ j < m, (mid.stageAt r c y).lowerAt i * (mid.stageAt r c y).upperAt j =
        mid.value i c / y * mid.value r j := by
      intro i j hj
      rw [consistent.lowerAt_stageAt inside member nonzero,
        consistent.upperAt_stageAt hr inside member hj]
    rw [← List.append_assoc]
    refine (ih fun st hst => pivots st (by simp [hst])).concat nonneg ?_ ?_
    · intro i hi j hj done
      have gone : mid.value i j - mid.value i c / y * mid.value r j = 0 := by
        simp only [List.map_append, List.mem_append, List.map_cons, List.map_nil,
          List.mem_singleton] at done
        rcases done with (row | pivotRow) | (col | pivotCol)
        · rw [consistent.value_of_row_done hj (by simpa using row),
            consistent.value_of_row_done inside (by simpa using row)]
          simp
        · obtain rfl : i = r := pivotRow
          rw [atPivot, div_self nonzero, one_mul, sub_self]
        · rw [consistent.value_of_col_done hj (by simpa using col),
            consistent.value_of_col_done (i := r) hj (by simpa using col)]
          simp
        · obtain rfl : j = c := pivotCol
          rw [atPivot, div_mul_cancel₀ _ nonzero, sub_self]
      rw [product i j hj, gone]
      rcases reduced i j hj with eq | ⟨zero, -⟩
      · rw [eq, gone]
      · exact zero
    · intro i hi j hj
      rw [product i j hj]
      rcases reduced i j hj with eq | ⟨zero, small⟩
      · rw [eq, sub_self, abs_zero]
        exact nonneg
      · rwa [zero, sub_zero]

end Pivoting

end SimplexBasis
