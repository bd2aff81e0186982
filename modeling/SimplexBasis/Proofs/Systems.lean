import Mathlib.LinearAlgebra.Matrix.NonsingularInverse
import SimplexBasis.Proofs.Positions
import SimplexBasis.Proofs.Sparse.Product

/-!
# Systems

Triangular systems by their columns and rows, and a matrix whose rows and columns are put in the order
of the pivots, with the systems that belong to it before and after.
-/

set_option linter.unusedSectionVars false

namespace SimplexBasis

variable {n : Nat} {order rows cols : Array Nat} {C : Matrix (Fin n) (Fin n) ℚ}

/-! ### Triangular systems -/

def vec (n : Nat) (xs : Array ℚ) : Fin n → ℚ := fun k => xs.getD k 0

/-- The matrix with a given diagonal and columns of coefficients beside it. -/
def assembled (n : Nat) (diagonal : Nat → ℚ) (coeff : Nat → Nat → ℚ) : Matrix (Fin n) (Fin n) ℚ :=
  .of fun i j => if i = j then diagonal i else coeff j i

section Assembled

variable {diagonal factor x y : Nat → ℚ} {coeff : Nat → Nat → ℚ}
  (own : ∀ k < n, coeff k k = 0) (unit : ∀ k < n, diagonal k * factor k = 1)

theorem sum_diagonal {i : Fin n} {d : ℚ} {e y : Fin n → ℚ} (own : e i = 0) :
    ∑ t, (if i = t then d else e t) * y t = d * y i + ∑ t, e t * y t := by
  have split : ∀ t, (if i = t then d else e t) * y t = (if i = t then d * y t else 0) + e t * y t := by
    intro t
    split
    · rename_i same
      rw [← same, own]
      ring
    · ring
  rw [Finset.sum_congr rfl fun t _ => split t, Finset.sum_add_distrib, Finset.sum_ite_eq,
    if_pos (Finset.mem_univ i)]

include own unit

theorem assembled_mulVec
    (solves : ∀ i < n, y i = factor i * (x i - ∑ j ∈ Finset.range n, coeff j i * y j)) :
    (assembled n diagonal coeff).mulVec (fun k => y k) = fun k : Fin n => x k := by
  ext i
  have row := solves i i.isLt
  rw [Finset.sum_range] at row
  change ∑ t : Fin n, (if i = t then diagonal i else coeff t i) * y t = x i
  rw [sum_diagonal (own i i.isLt), row, ← mul_assoc, unit i i.isLt]
  ring

theorem assembled_transpose_mulVec
    (solves : ∀ i < n, y i = factor i * (x i - ∑ j ∈ Finset.range n, coeff i j * y j)) :
    (assembled n diagonal coeff).transpose.mulVec (fun k => y k) = fun k : Fin n => x k := by
  ext i
  have row := solves i i.isLt
  rw [Finset.sum_range] at row
  have flipped : ∀ t : Fin n, (assembled n diagonal coeff).transpose i t =
      if i = t then diagonal i else coeff i t := by
    intro t
    change (if t = i then diagonal t else coeff i t) = _
    by_cases same : i = t
    · subst same
      rw [if_pos rfl]
    · rw [if_neg same, if_neg fun eq => same eq.symm]
  change ∑ t : Fin n, (assembled n diagonal coeff).transpose i t * y t = x i
  simp only [flipped]
  rw [sum_diagonal (own i i.isLt), row, ← mul_assoc, unit i i.isLt]
  ring

end Assembled

/-! ### Orders -/

/-- The matrix that puts the entries of a vector in a given order. -/
def selection (n : Nat) (order : Array Nat) : Matrix (Fin n) (Fin n) ℚ :=
  .of fun k i => if order.getD k 0 = i then 1 else 0

/-- The entry that is put in place `k`. -/
def chosen (perm : order.toList.Perm (List.range n)) (k : Fin n) : Fin n :=
  ⟨order.getD k 0, getD_lt_of_perm perm k.isLt⟩

theorem chosen_injective (perm : order.toList.Perm (List.range n)) :
    Function.Injective (chosen perm) := fun _ _ same =>
  Fin.ext (getD_inj_of_perm perm (Fin.isLt _) (Fin.isLt _) (Fin.mk.inj same))

theorem chosen_surjective (perm : order.toList.Perm (List.range n)) (i : Fin n) :
    ∃ k, chosen perm k = i := Finite.surjective_of_injective (chosen_injective perm) i

/-- The entries numbered by their places. -/
noncomputable def ordering (perm : order.toList.Perm (List.range n)) : Fin n ≃ Fin n :=
  .ofBijective (chosen perm) ⟨chosen_injective perm, chosen_surjective perm⟩

/-- The row of each column, where they are chosen together. -/
noncomputable def position (permRows : rows.toList.Perm (List.range n))
    (permCols : cols.toList.Perm (List.range n)) : Fin n ≃ Fin n :=
  (ordering permCols).symm.trans (ordering permRows)

theorem position_chosen (permRows : rows.toList.Perm (List.range n))
    (permCols : cols.toList.Perm (List.range n)) (k : Fin n) :
    position permRows permCols (chosen permCols k) = chosen permRows k :=
  congrArg (ordering permRows) ((ordering permCols).symm_apply_apply k)

theorem selection_apply (perm : order.toList.Perm (List.range n)) (k i : Fin n) :
    selection n order k i = if chosen perm k = i then 1 else 0 :=
  if_congr (Fin.ext_iff (a := chosen perm k) (b := i)).symm rfl rfl

theorem selection_mulVec (perm : order.toList.Perm (List.range n)) (z : Fin n → ℚ) :
    (selection n order).mulVec z = fun k => z (chosen perm k) := by
  ext k
  change ∑ i, selection n order k i * z i = _
  simp only [selection_apply perm, ite_mul, one_mul, zero_mul]
  rw [Finset.sum_ite_eq, if_pos (Finset.mem_univ _)]

theorem selection_mul_transpose (perm : order.toList.Perm (List.range n)) :
    selection n order * (selection n order).transpose = 1 := by
  ext k l
  rw [Matrix.mul_apply, Matrix.one_apply]
  simp only [Matrix.transpose_apply, selection_apply perm, ite_mul, one_mul, zero_mul]
  rw [Finset.sum_ite_eq, if_pos (Finset.mem_univ _)]
  exact if_congr ((chosen_injective perm).eq_iff.trans eq_comm) rfl rfl

theorem selection_transpose_mul (perm : order.toList.Perm (List.range n)) :
    (selection n order).transpose * selection n order = 1 :=
  mul_eq_one_comm.mp (selection_mul_transpose perm)

/-- The matrix whose rows and columns in the order of the pivots make up `C`. -/
def placed (rows cols : Array Nat) (C : Matrix (Fin n) (Fin n) ℚ) : Matrix (Fin n) (Fin n) ℚ :=
  (selection n rows).transpose * C * selection n cols

theorem transpose_placed (rows cols : Array Nat) (C : Matrix (Fin n) (Fin n) ℚ) :
    (placed rows cols C).transpose = placed cols rows C.transpose := by
  simp only [placed, Matrix.transpose_mul, Matrix.transpose_transpose, Matrix.mul_assoc]

section Placed

variable (permRows : rows.toList.Perm (List.range n)) (permCols : cols.toList.Perm (List.range n))
include permRows permCols

theorem placed_chosen (s t : Fin n) :
    placed rows cols C (chosen permRows s) (chosen permCols t) = C s t := by
  have whole : selection n rows * placed rows cols C * (selection n cols).transpose = C := by
    calc _ = selection n rows * (selection n rows).transpose * C *
          (selection n cols * (selection n cols).transpose) := by simp only [placed, Matrix.mul_assoc]
      _ = C := by
        rw [selection_mul_transpose permRows, selection_mul_transpose permCols, Matrix.one_mul,
          Matrix.mul_one]
  rw [← congrFun (congrFun whole s) t, Matrix.mul_apply]
  simp only [Matrix.transpose_apply, selection_apply permCols, mul_ite, mul_one, mul_zero]
  rw [Finset.sum_ite_eq, if_pos (Finset.mem_univ _)]
  exact (congrFun (selection_mulVec permRows fun i => placed rows cols C i (chosen permCols t)) s).symm

theorem placed_ordered (M : Matrix (Fin n) (Fin n) ℚ)
    (ordered : ∀ s t, C s t = M (chosen permRows s) (chosen permCols t)) : placed rows cols C = M := by
  ext i j
  obtain ⟨s, rfl⟩ := chosen_surjective permRows i
  obtain ⟨t, rfl⟩ := chosen_surjective permCols j
  rw [placed_chosen, ordered]

theorem placed_position : placed rows rows C =
    (placed rows cols C).submatrix id (position permRows permCols).symm := by
  ext i p
  obtain ⟨s, rfl⟩ := chosen_surjective permRows i
  obtain ⟨t, rfl⟩ := chosen_surjective permRows p
  rw [placed_chosen, Matrix.submatrix_apply, ← position_chosen permRows permCols t,
    Equiv.symm_apply_apply, id, placed_chosen]

theorem placed_mulVec_iff {z v : Fin n → ℚ} : (placed rows cols C).mulVec z = v ↔
    C.mulVec (fun k => z (chosen permCols k)) = fun k => v (chosen permRows k) := by
  have factors : (placed rows cols C).mulVec z = (selection n rows).transpose.mulVec
      (C.mulVec fun k => z (chosen permCols k)) := by
    rw [← selection_mulVec permCols, placed, Matrix.mulVec_mulVec, Matrix.mulVec_mulVec]
  rw [← selection_mulVec permRows, factors]
  constructor
  · rintro rfl
    rw [Matrix.mulVec_mulVec, selection_mul_transpose permRows, Matrix.one_mulVec]
  · intro system
    rw [system, Matrix.mulVec_mulVec, selection_transpose_mul permRows, Matrix.one_mulVec]

theorem det_placed_ne_zero (det : C.det ≠ 0) : (placed rows cols C).det ≠ 0 := by
  have unit : ∀ {order : Array Nat}, order.toList.Perm (List.range n) →
      (selection n order).det ≠ 0 := fun perm zero => by
    have product := congrArg Matrix.det (selection_mul_transpose perm)
    rw [Matrix.det_mul, zero, zero_mul, Matrix.det_one] at product
    exact zero_ne_one product
  rw [placed, Matrix.det_mul, Matrix.det_mul, Matrix.det_transpose]
  exact mul_ne_zero (mul_ne_zero (unit permRows) det) (unit permCols)

end Placed

theorem mulVec_unique (det : C.det ≠ 0) {x y : Fin n → ℚ} (same : C.mulVec x = C.mulVec y) : x = y :=
  Matrix.mulVec_injective_of_isUnit
    ((Matrix.isUnit_iff_isUnit_det C).mpr (isUnit_iff_ne_zero.mpr det)) same

theorem exists_mulVec (det : C.det ≠ 0) (v : Fin n → ℚ) : ∃ x, C.mulVec x = v :=
  Matrix.mulVec_surjective_iff_isUnit.mpr
    ((Matrix.isUnit_iff_isUnit_det C).mpr (isUnit_iff_ne_zero.mpr det)) v

end SimplexBasis
