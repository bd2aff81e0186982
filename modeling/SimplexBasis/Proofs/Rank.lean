import Mathlib.LinearAlgebra.Matrix.Rank
import SimplexBasis.Proofs.Sparse.Triangles

/-!
# Rank

Stages with nonzero pivots that make up a matrix are as many as its rank.
-/

set_option linter.unusedSectionVars false

namespace SimplexBasis

variable {m : Nat} {all : List (Stage ℚ)} {B : Nat → Nat → ℚ} {st : Stage ℚ}

theorem Stage.lowerAt_row (st : Stage ℚ) : st.lowerAt st.row = 1 := if_pos rfl

theorem Stage.upperAt_col (st : Stage ℚ) : st.upperAt st.col = st.pivot := if_pos rfl

theorem Stage.Fits.lowerAt_eq_zero {before : List (Stage ℚ)} {i : Nat} (h : st.Fits m before)
    (member : i ∈ before.map Stage.row) : st.lowerAt i = 0 := by
  have other : i ≠ st.row := fun eq => h.freshRow (eq ▸ member)
  exact (if_neg other).trans (valueAt_of_not_mem fun key => (h.lower i key).2.2 member)

theorem Stage.Fits.upperAt_eq_zero {before : List (Stage ℚ)} {j : Nat} (h : st.Fits m before)
    (member : j ∈ before.map Stage.col) : st.upperAt j = 0 := by
  have other : j ≠ st.col := fun eq => h.freshCol (eq ▸ member)
  exact (if_neg other).trans (valueAt_of_not_mem fun key => (h.upper j key).2.2 member)

/-- The entries of the lower factor by rows of the matrix. -/
def lowerPart (m : Nat) (all : List (Stage ℚ)) : Matrix (Fin m) (Fin all.length) ℚ :=
  .of fun i k => all[k].lowerAt i

/-- The entries of the upper factor by columns of the matrix. -/
def upperPart (m : Nat) (all : List (Stage ℚ)) : Matrix (Fin all.length) (Fin m) ℚ :=
  .of fun k j => all[k].upperAt j

theorem Accounts.eq_mul (balance : Accounts 0 B m all fun _ _ => 0) :
    (Matrix.of fun i j : Fin m => B i j) = lowerPart m all * upperPart m all := by
  ext i j
  have zero := balance i i.isLt j j.isLt
  rw [mul_zero, abs_nonpos_iff, sub_zero, sub_eq_zero] at zero
  rw [Matrix.of_apply, zero, Matrix.mul_apply]
  unfold productAt
  rw [← Fin.sum_univ_fun_getElem]
  rfl

/-! ### Products of triangles -/

section Triangles

variable {r : Nat} {L : Matrix (Fin m) (Fin r) ℚ} {U : Matrix (Fin r) (Fin m) ℚ}
  {row col : Fin r → Fin m} (lower : (L.submatrix row id).IsLowerTriangular)
  (upper : (U.submatrix id col).IsUpperTriangular) (lowerDiagonal : ∀ k, L (row k) k ≠ 0)
  (upperDiagonal : ∀ k, U k (col k) ≠ 0)

include lower upper lowerDiagonal upperDiagonal

theorem det_mul_ne_zero : ((L * U).submatrix row col).det ≠ 0 := by
  rw [show (L * U).submatrix row col = L.submatrix row id * U.submatrix id col from rfl,
    Matrix.det_mul, Matrix.det_of_isLowerTriangular _ lower, Matrix.det_of_isUpperTriangular upper]
  exact mul_ne_zero (Finset.prod_ne_zero_iff.mpr fun k _ => lowerDiagonal k)
    (Finset.prod_ne_zero_iff.mpr fun k _ => upperDiagonal k)

/-- A product of factors that are triangular in some rows and columns has as large a rank as they
have stages. -/
theorem rank_mul_eq : (L * U).rank = r := by
  refine le_antisymm ?_ ?_
  · exact (Matrix.rank_mul_le_left _ _).trans (Matrix.rank_le_width _)
  · have full := Matrix.rank_of_det_ne_zero
      (det_mul_ne_zero lower upper lowerDiagonal upperDiagonal)
    rw [Fintype.card_fin] at full
    calc r = ((L * U).submatrix row col).rank := full.symm
      _ ≤ _ := Matrix.rank_submatrix_le _ _ _

end Triangles

namespace Triangular

variable (h : Triangular m all)

def pivotRow (k : Fin all.length) : Fin m := ⟨all[k].row, (h.fits (List.getElem_mem _)).1⟩

def pivotCol (k : Fin all.length) : Fin m := ⟨all[k].col, (h.fits (List.getElem_mem _)).2⟩

include h

theorem fits_take (k : Fin all.length) : all[k].Fits m (all.take k) :=
  h (all.take k) all[k] (all.drop (k + 1)) (by
    rw [Fin.getElem_fin, List.getElem_cons_drop, List.take_append_drop])

theorem lower : ((lowerPart m all).submatrix h.pivotRow id).IsLowerTriangular := by
  intro s t above
  have above : s < t := above
  exact (h.fits_take t).lowerAt_eq_zero (List.mem_map_of_mem
    (List.mem_take_iff_getElem.mpr ⟨s, by have := t.isLt; omega, rfl⟩))

theorem upper : ((upperPart m all).submatrix id h.pivotCol).IsUpperTriangular := by
  intro s t below
  have below : t < s := below
  exact (h.fits_take s).upperAt_eq_zero (List.mem_map_of_mem
    (List.mem_take_iff_getElem.mpr ⟨t, by have := s.isLt; omega, rfl⟩))

theorem lower_diagonal (k : Fin all.length) : lowerPart m all (h.pivotRow k) k ≠ 0 := by
  rw [show lowerPart m all (h.pivotRow k) k = 1 from Stage.lowerAt_row _]
  exact one_ne_zero

theorem upper_diagonal (pivots : ∀ st ∈ all, st.pivot ≠ 0) (k : Fin all.length) :
    upperPart m all k (h.pivotCol k) ≠ 0 := by
  rw [show upperPart m all k (h.pivotCol k) = all[k].pivot from Stage.upperAt_col _]
  exact pivots _ (List.getElem_mem _)

end Triangular

theorem det_pivots_ne_zero (h : Triangular m all) (pivots : ∀ st ∈ all, st.pivot ≠ 0)
    (balance : Accounts 0 B m all fun _ _ => 0) :
    (Matrix.of fun k l : Fin all.length => B all[k].row all[l].col).det ≠ 0 := by
  have product : (Matrix.of fun k l : Fin all.length => B all[k].row all[l].col) =
      (lowerPart m all * upperPart m all).submatrix h.pivotRow h.pivotCol :=
    congrArg (·.submatrix h.pivotRow h.pivotCol) balance.eq_mul
  rw [product]
  exact det_mul_ne_zero h.lower h.upper h.lower_diagonal (h.upper_diagonal pivots)

theorem rank_eq_length (h : Triangular m all) (pivots : ∀ st ∈ all, st.pivot ≠ 0)
    (balance : Accounts 0 B m all fun _ _ => 0) :
    (Matrix.of fun i j : Fin m => B i j).rank = all.length := by
  rw [balance.eq_mul]
  exact rank_mul_eq h.lower h.upper h.lower_diagonal (h.upper_diagonal pivots)

theorem det_ne_zero_iff_rank {A : Matrix (Fin m) (Fin m) ℚ} : A.det ≠ 0 ↔ A.rank = m := by
  rw [← isUnit_iff_ne_zero, ← Matrix.isUnit_iff_isUnit_det,
    ← Matrix.linearIndependent_cols_iff_isUnit, linearIndependent_iff_card_eq_finrank_span,
    Matrix.rank_eq_finrank_span_cols, Fintype.card_fin, Set.finrank, eq_comm]

end SimplexBasis
