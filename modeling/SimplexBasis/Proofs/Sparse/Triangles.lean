import Mathlib.Data.Fintype.EquivFin
import Mathlib.LinearAlgebra.Matrix.Block
import SimplexBasis.Proofs.Sparse.Factorizing

/-!
# Triangular matrices

The matrices that numbered factors stand for. Their product is the sum of the products of the stages,
with rows and columns in the order of the pivots.
-/

set_option linter.unusedSectionVars false

namespace SimplexBasis

namespace Compressed

/-- The value with index `i` in line `k`. -/
def entryIn (c : Compressed ℚ) (k i : Nat) : ℚ :=
  match c.line k with
  | .ok line => valueAt line i
  | .error _ => 0

/-- Each of the first `n` lines has different indices between its own number and `n`. -/
def Beyond {α : Type} (c : Compressed α) (n : Nat) : Prop :=
  ∀ k < n, ∃ line, c.line k = .ok line ∧ (keys line).Nodup ∧ ∀ i ∈ keys line, k < i ∧ i < n

theorem Beyond.entryIn_eq_zero {c : Compressed ℚ} {n k i : Nat} (h : c.Beyond n) (hk : k < n)
    (hi : i ≤ k) : c.entryIn k i = 0 := by
  obtain ⟨line, read, -, beyond⟩ := h k hk
  unfold entryIn
  rw [read]
  exact valueAt_of_not_mem fun member => by have := (beyond i member).1; omega

end Compressed

namespace Factors

variable {α : Type} [Scalar α] {n k : Nat} {all : List (Stage α)}

/-! ### Numbered stages -/

theorem keys_renumbered {order : List Nat} {entries : List (Nat × α)} :
    keys (renumbered order entries) = (keys entries).map order.idxOf := by
  unfold renumbered keys
  rw [List.map_map, List.map_map]
  rfl

theorem valueAt_renumbered {order : List Nat} {entries : List (Nat × α)} {i : Nat}
    (inside : ∀ j ∈ keys entries, j ∈ order) :
    valueAt (renumbered order entries) (order.idxOf i) = valueAt entries i := by
  induction entries with
  | nil => rfl
  | cons e rest ih =>
    have here := inside e.1 (by simp [keys])
    have tail := ih fun j hj => inside j (List.mem_cons_of_mem _ hj)
    change valueAt ((order.idxOf e.1, e.2) :: renumbered order rest) _ = _
    rw [valueAt_cons, valueAt_cons, tail]
    exact if_congr (List.idxOf_inj here) rfl rfl

theorem renumbered_beyond {order : List Nat} {entries : List (Nat × α)} (hk : k < order.length)
    (distinct : (keys entries).Nodup)
    (later : ∀ i ∈ keys entries, i ∈ order ∧ i ≠ order[k] ∧ i ∉ order.take k) :
    (keys (renumbered order entries)).Nodup ∧
      ∀ s ∈ keys (renumbered order entries), k < s ∧ s < order.length := by
  rw [keys_renumbered]
  constructor
  · exact distinct.map_on fun i hi j _ same => (List.idxOf_inj (later i hi).1).mp same
  · intro s hs
    obtain ⟨i, hi, rfl⟩ := List.mem_map.mp hs
    obtain ⟨member, here, before⟩ := later i hi
    have inside := List.idxOf_lt_length_iff.mpr member
    refine ⟨Nat.lt_of_not_le fun le => ?_, inside⟩
    have found : order[order.idxOf i] = i := List.getElem_idxOf inside
    rcases Nat.lt_or_eq_of_le le with lt | eq
    · exact before (List.mem_take_iff_getElem.mpr ⟨_, by omega, found⟩)
    · simp only [eq] at found
      exact here found.symm

section Numbered

variable (h : Triangular all.length all)

theorem line_lower (hk : k < all.length) : (numbered n all).lower.line k =
    .ok (renumbered (all.map Stage.row) all[k].lower) := by
  have read := Compressed.line_ofLines
    (all.map fun st => renumbered (all.map Stage.row) st.lower) k (by simpa using hk)
  rwa [List.getElem_map] at read

theorem line_upper (hk : k < all.length) : (numbered n all).upper.line k =
    .ok (renumbered (all.map Stage.col) all[k].upper) := by
  have read := Compressed.line_ofLines
    (all.map fun st => renumbered (all.map Stage.col) st.upper) k (by simpa using hk)
  rwa [List.getElem_map] at read

include h

theorem fits_getElem (hk : k < all.length) : all[k].Fits all.length (all.take k) := by
  refine h (all.take k) all[k] (all.drop (k + 1)) ?_
  rw [List.getElem_cons_drop, List.take_append_drop]

theorem idxOf_row (hk : k < all.length) : (all.map Stage.row).idxOf all[k].row = k := by
  have place := h.nodup_rows.idxOf_getElem k (by simpa using hk)
  rwa [List.getElem_map] at place

theorem idxOf_col (hk : k < all.length) : (all.map Stage.col).idxOf all[k].col = k := by
  have place := h.nodup_cols.idxOf_getElem k (by simpa using hk)
  rwa [List.getElem_map] at place

theorem mem_rows {i : Nat} (hi : i < all.length) : i ∈ all.map Stage.row :=
  (h.rows_perm le_rfl).mem_iff.mpr (List.mem_range.mpr hi)

theorem mem_cols {j : Nat} (hj : j < all.length) : j ∈ all.map Stage.col :=
  (h.cols_perm le_rfl).mem_iff.mpr (List.mem_range.mpr hj)

theorem beyond_lower : (numbered n all).lower.Beyond all.length := by
  intro k hk
  have fits := fits_getElem h hk
  have numbers := @renumbered_beyond _ _ k (all.map Stage.row) _ (by simpa using hk)
    fits.distinctLower fun i hi => ?_
  · refine ⟨_, line_lower hk, numbers.1, ?_⟩
    simpa using numbers.2
  · obtain ⟨inside, other, fresh⟩ := fits.lower i hi
    rw [List.getElem_map, ← List.map_take]
    exact ⟨mem_rows h inside, other, fresh⟩

theorem beyond_upper : (numbered n all).upper.Beyond all.length := by
  intro k hk
  have fits := fits_getElem h hk
  have numbers := @renumbered_beyond _ _ k (all.map Stage.col) _ (by simpa using hk)
    fits.distinctUpper fun j hj => ?_
  · refine ⟨_, line_upper hk, numbers.1, ?_⟩
    simpa using numbers.2
  · obtain ⟨inside, other, fresh⟩ := fits.upper j hj
    rw [List.getElem_map, ← List.map_take]
    exact ⟨mem_cols h inside, other, fresh⟩

end Numbered

/-! ### Matrices -/

section Matrices

variable {all : List (Stage ℚ)} {f : Factors ℚ}

/-- The lower factor, stored by columns without its unit diagonal. -/
def lowerMatrix (f : Factors ℚ) (n : Nat) : Matrix (Fin n) (Fin n) ℚ :=
  .of fun s t => if s = t then 1 else f.lower.entryIn t s

/-- The upper factor, stored by rows and the reciprocals of its diagonal. -/
def upperMatrix (f : Factors ℚ) (n : Nat) : Matrix (Fin n) (Fin n) ℚ :=
  .of fun s t => if s = t then 1 / f.inverses.getD s 0 else f.upper.entryIn s t

theorem isLowerTriangular_lowerMatrix (h : f.lower.Beyond n) :
    (f.lowerMatrix n).IsLowerTriangular := by
  intro s t above
  have above : s < t := above
  unfold lowerMatrix
  rw [Matrix.of_apply, if_neg (ne_of_lt above)]
  exact h.entryIn_eq_zero t.isLt (Nat.le_of_lt above)

theorem isUpperTriangular_upperMatrix (h : f.upper.Beyond n) :
    (f.upperMatrix n).IsUpperTriangular := by
  intro s t below
  have below : t < s := below
  unfold upperMatrix
  rw [Matrix.of_apply, if_neg (ne_of_gt below)]
  exact h.entryIn_eq_zero s.isLt (Nat.le_of_lt below)

variable (h : Triangular all.length all)
include h

theorem lowerMatrix_apply (s t : Fin all.length) :
    (numbered n all).lowerMatrix all.length s t = (all.get t).lowerAt (all.get s).row := by
  have fits := fits_getElem h t.isLt
  unfold lowerMatrix Stage.lowerAt Compressed.entryIn
  rw [Matrix.of_apply, line_lower t.isLt]
  dsimp only [List.get_eq_getElem]
  by_cases same : s = t
  · rw [if_pos same, if_pos (by rw [same])]
  · have other : all[s.val].row ≠ all[t.val].row := fun eq => same (Fin.ext (by
      rw [← idxOf_row h s.isLt, ← idxOf_row h t.isLt, eq]))
    rw [if_neg same, if_neg other]
    have read := valueAt_renumbered
      (i := all[s.val].row) (fun i hi => mem_rows h (fits.lower i hi).1)
    rwa [idxOf_row h s.isLt] at read

theorem upperMatrix_apply (s t : Fin all.length) :
    (numbered n all).upperMatrix all.length s t = (all.get s).upperAt (all.get t).col := by
  have fits := fits_getElem h s.isLt
  unfold upperMatrix Stage.upperAt Compressed.entryIn
  rw [Matrix.of_apply, line_upper s.isLt]
  dsimp only [List.get_eq_getElem]
  by_cases same : s = t
  · subst same
    have inverse : (numbered n all).inverses.getD s 0 = 1 / all[s.val].pivot := by
      simp [numbered, ofStages, Array.getD]
    rw [if_pos rfl, if_pos rfl, inverse, one_div_one_div]
  · have other : all[t.val].col ≠ all[s.val].col := fun eq => same (Fin.ext (by
      rw [← idxOf_col h s.isLt, ← idxOf_col h t.isLt, eq]))
    rw [if_neg same, if_neg other]
    have read := valueAt_renumbered
      (i := all[t.val].col) (fun j hj => mem_cols h (fits.upper j hj).1)
    rwa [idxOf_col h t.isLt] at read

theorem mul_apply (s t : Fin all.length) :
    ((numbered n all).lowerMatrix all.length * (numbered n all).upperMatrix all.length) s t =
      productAt all (all.get s).row (all.get t).col := by
  rw [Matrix.mul_apply]
  unfold productAt
  rw [← Fin.sum_univ_fun_getElem]
  refine Finset.sum_congr rfl fun k _ => ?_
  rw [lowerMatrix_apply h, upperMatrix_apply h]
  rfl

theorem reductionsAt_eq (s t : Fin all.length) :
    reductionsAt all (all.get s).row (all.get t).col = min s.val t.val := by
  unfold reductionsAt
  rw [List.get_eq_getElem, List.get_eq_getElem, idxOf_row h s.isLt, idxOf_col h t.isLt]

end Matrices

end Factors

end SimplexBasis
