import SimplexBasis.Proofs.Sparse.Elimination

/-!
# Chains of pivots

`Pivoting tolerance m front v stages w` says that `w` is what the given pivots, one after another,
leave of `v`, behind the stages `front`. The pivot search may move rows between the lists on the way,
but it sets no empty row aside.
-/

set_option linter.unusedSectionVars false

namespace SimplexBasis

variable {α : Type} [Scalar α] {s t : SparseFactorization α} {m i j : Nat} {x tolerance : α}
  {stages more rest : List (Stage α)} {u v w : ActiveView α}

/-- Two views that differ in the lists of the rows only. -/
def ActiveView.SameEntries (v w : ActiveView α) : Prop := w = { v with rowLists := w.rowLists }

namespace ActiveView

theorem SameEntries.refl (v : ActiveView α) : v.SameEntries v := rfl

theorem SameEntries.trans (first : v.SameEntries w) (second : w.SameEntries u) :
    v.SameEntries u := by
  unfold SameEntries at *
  rw [second, first]

theorem SameEntries.symm (same : v.SameEntries w) : w.SameEntries v := by
  unfold SameEntries
  rw [same]

theorem SameEntries.cols (same : v.SameEntries w) : w.cols = v.cols := by
  rw [same]

theorem SameEntries.colMax (same : v.SameEntries w) : w.colMax = v.colMax := by
  rw [same]

/-! ### Rows set aside -/

/-- The rows set aside have entries. -/
def AsideFilled (v : ActiveView α) (m : Nat) : Prop := ∀ i ∈ v.rowLists (m + 1), v.rows i ≠ []

namespace Consistent

variable {r c : Nat} {rowsDone colsDone : List Nat} (h : v.Consistent m rowsDone colsDone)

include h

theorem listed_rowLists : Listed m v.rowLists fun i n => i ∈ v.rowLists n := by
  obtain ⟨list, -, listed⟩ := h.rowListed
  exact fun n hn => ⟨(listed n hn).1, fun i => ⟨fun here => ⟨(((listed n hn).2 i).mp here).1, here⟩,
    And.right⟩⟩

theorem asideFilled_pivotAt (hc : c < m) (pivot : (r, x) ∈ v.cols c) (filled : v.AsideFilled m) :
    (v.pivotAt tolerance r c x).AsideFilled m := by
  have hr := (h.colRange c hc r (List.mem_map_of_mem (f := Prod.fst) pivot)).1
  unfold pivotAt
  split
  · intro i aside
    have listed : Listed m (v.columnPivot r c).rowLists fun i n => i ≠ r ∧ i ∈ v.rowLists n := by
      simpa [ActiveView.columnPivot, recount, drop] using h.listed_rowLists.erase r
    obtain ⟨-, other, before⟩ := ((listed (m + 1) (by omega)).2 i).mp aside
    rw [rows_columnPivot, Function.update_of_ne other]
    exact filled i before
  · split
    · intro i aside
      have distinct := nodup_keys_filter (h.distinctCols c hc) (·.1 != r)
      have listed := (listed_removeRows (j := c) distinct (h.col_inside hc) h.listed_rowLists).erase r
      obtain ⟨-, other, place⟩ := ((listed (m + 1) (by omega)).2 i).mp aside
      simp only [ActiveView.rowPivot, recount, drop, rows_removeRows distinct,
        Function.update_of_ne other]
      split at place
      · rw [if_pos ‹_›]
        exact List.ne_nil_of_length_eq_add_one place.symm
      · rw [if_neg ‹_›]
        exact filled i place
    · intro i aside
      have listed := (listed_rewriteRows (v := v.rewriteColumns (v.newColumn tolerance r c x)
        (v.crossingCols r c)) (f := v.newRow tolerance r c x) (h.rows_inside hr hc)
        (by simpa using h.listed_rowLists)).erase r
      obtain ⟨-, other, place⟩ := ((listed (m + 1) (by omega)).2 i).mp aside
      rw [rows_generalPivot]
      dsimp only
      rw [if_neg other]
      split at place
      · rw [if_pos ‹_›]
        exact List.ne_nil_of_length_eq_add_one place.symm
      · rw [if_neg ‹_›]
        exact filled i place

end Consistent

end ActiveView

/-- Pivots, one after another, behind the stages `front`. -/
inductive Pivoting (tolerance : α) (m : Nat) (front : List (Stage α)) (v : ActiveView α) :
    List (Stage α) → ActiveView α → Prop
  | start : Pivoting tolerance m front v [] v
  | relist {before : List (Stage α)} {mid after : ActiveView α}
      (chain : Pivoting tolerance m front v before mid) (same : mid.SameEntries after)
      (aside : mid.AsideFilled m → after.AsideFilled m) :
      Pivoting tolerance m front v before after
  | pivot {before : List (Stage α)} {mid : ActiveView α}
      (chain : Pivoting tolerance m front v before mid)
      (consistent : mid.Consistent m ((front ++ before).map Stage.row)
        ((front ++ before).map Stage.col))
      {r c : Nat} {y : α} (inside : c < m) (member : (r, y) ∈ mid.cols c) :
      Pivoting tolerance m front v (before ++ [mid.stageAt r c y]) (mid.pivotAt tolerance r c y)

namespace Pivoting

theorem trans (first : Pivoting tolerance m stages v more w)
    (second : Pivoting tolerance m (stages ++ more) w rest u) :
    Pivoting tolerance m stages v (more ++ rest) u := by
  induction second with
  | start => simpa using first
  | relist _ same aside ih => exact ih.relist same aside
  | pivot _ consistent inside member ih =>
    rw [← List.append_assoc]
    exact ih.pivot (by simpa using consistent) inside member

theorem single (consistent : v.Consistent m (stages.map Stage.row) (stages.map Stage.col))
    (inside : j < m) (member : (i, x) ∈ v.cols j) :
    Pivoting tolerance m stages v [v.stageAt i j x] (v.pivotAt tolerance i j x) :=
  Pivoting.start.pivot (by simpa using consistent) inside member

theorem triangular (chain : Pivoting tolerance m stages v more w) (front : Triangular m stages) :
    Triangular m (stages ++ more) := by
  induction chain with
  | start => simpa using front
  | relist _ _ _ ih => exact ih
  | @pivot before mid chain consistent r c y inside member ih =>
    have keyed : r ∈ keys (mid.cols c) := List.mem_map_of_mem (f := Prod.fst) member
    obtain ⟨hr, freshRow⟩ := consistent.colRange c inside r keyed
    have inRow := (consistent.agree r hr c inside).mpr keyed
    rw [← List.append_assoc]
    refine ih.concat {
      insideRow := hr
      insideCol := inside
      freshRow := freshRow
      freshCol := (consistent.rowRange r hr c inRow).2
      distinctLower := ?_
      distinctUpper := ?_
      lower := fun i hi => ?_
      upper := fun j hj => ?_ }
    · rw [ActiveView.keys_stageAt_lower]
      exact consistent.nodup_crossingRows inside
    · rw [ActiveView.keys_stageAt_upper]
      exact consistent.nodup_crossingCols hr
    · rw [ActiveView.keys_stageAt_lower] at hi
      obtain ⟨ne, member⟩ := ActiveView.mem_crossingRows.mp hi
      obtain ⟨range, fresh⟩ := consistent.colRange c inside i member
      exact ⟨range, ne, fresh⟩
    · rw [ActiveView.keys_stageAt_upper] at hj
      obtain ⟨ne, member⟩ := ActiveView.mem_crossingCols.mp hj
      obtain ⟨range, fresh⟩ := consistent.rowRange r hr j member
      exact ⟨range, ne, fresh⟩

theorem asideFilled (chain : Pivoting tolerance m stages v more w) (filled : v.AsideFilled m) :
    w.AsideFilled m := by
  induction chain with
  | start => exact filled
  | relist _ _ aside ih => exact aside ih
  | pivot _ consistent inside member ih => exact consistent.asideFilled_pivotAt inside member ih

end Pivoting

namespace ActiveView

theorem pivotAt_of_col (only : v.cols j = [(i, x)]) :
    v.pivotAt tolerance i j x = v.columnPivot i j := by
  simp [pivotAt, only]

/-- When both the row and the column have one entry, both pivots are the same. -/
theorem pivotAt_of_row (only : v.rows i = [j]) (member : (i, x) ∈ v.cols j) :
    v.pivotAt tolerance i j x = v.rowPivot i j := by
  unfold pivotAt
  split
  · rename_i single
    obtain ⟨e, eq⟩ := List.length_eq_one_iff.mp single
    have entry : v.cols j = [(i, x)] := by
      rw [eq] at member ⊢
      rw [List.mem_singleton.mp member]
    simp [columnPivot, rowPivot, only, entry, removeColumns, removeRows]
  · simp [only]

end ActiveView

end SimplexBasis
