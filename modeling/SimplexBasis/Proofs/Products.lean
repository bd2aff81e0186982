import SimplexBasis.Proofs.Dense.Solving
import SimplexBasis.Proofs.Slacks
import SimplexBasis.Proofs.Systems
import SimplexBasis.Proofs.Triangular.Substitution
import SimplexBasis.Proofs.Validation

/-!
# Products

The products of a matrix given by columns, and of its transpose, are those of the dense matrix, one
of them made by scattering the columns and the other by gathering them. Columns overwritten by slack
columns leave a matrix that passes all the checks, with products of its own.
-/

set_option linter.unusedSectionVars false

namespace SimplexBasis.BasisMatrix

open SparseFactorization (entryOf)
open DenseFactorization (scalar_sum)

/-! ### Checks -/

section Checks

variable {α : Type} [Scalar α] {b : BasisMatrix α} {columns : List (List (Nat × α))} {j : Nat}

theorem Holds.cut_eq (h : b.Holds columns) (hj : j < columns.length) :
    b.columns.cut j = columns[j] := by
  have form := Compressed.wellFormed_ofLines columns
  have read := Compressed.line_eq_cut (c := .ofLines columns) (k := j) (by rw [form.size]; omega)
    (form.ascending j hj) (form.start_le hj) (Nat.le_of_eq form.values.symm)
  rw [Compressed.line_ofLines columns j hj] at read
  rw [h.stored]
  exact (Except.ok.inj read).symm

/-- Columns of different rows with finite values pass the checks of the arrays. -/
theorem Holds.accepted (h : b.Holds columns)
    (finite : ∀ column ∈ columns, ∀ e ∈ column, Scalar.isFinite e.2 = true) : b.Accepted := by
  have form : b.columns.WellFormed b.dimension := by
    rw [h.stored, ← h.length]
    exact Compressed.wellFormed_ofLines columns
  have head : b.columns.Headed b.dimension := ⟨form.size, form.first, form.values.symm, form.last⟩
  have passes : ∀ j < b.dimension, b.columns.Passes b.dimension j := by
    intro j hj
    have inside : j < columns.length := h.length ▸ hj
    have member : columns[j] ∈ columns := List.getElem_mem inside
    refine ⟨form.ascending j hj, form.start_le hj, ?_⟩
    rw [h.cut_eq inside]
    exact ⟨h.distinct _ member, h.inside _ member, finite _ member⟩
  obtain ⟨marks, run, -⟩ := checkColumns_run head (Nat.le_refl _) passes
  unfold Accepted
  rw [ofCompressed_eq head, run]
  rfl

end Checks

/-! ### Products -/

variable {b c : BasisMatrix ℚ} {columns : List (List (Nat × ℚ))} {x y : Array ℚ} {j : Nat}
  {replaced : List (Nat × Nat)}

theorem Holds.column_getD (h : b.Holds columns) (hj : j < b.dimension) :
    b.column j = .ok (columns.getD j []) ∧ (keys (columns.getD j [])).Nodup ∧
      ∀ i ∈ keys (columns.getD j []), i < b.dimension := by
  have inside : j < columns.length := h.length ▸ hj
  have here : columns.getD j [] = columns[j] := by simp [inside]
  have member : columns[j] ∈ columns := List.getElem_mem inside
  rw [here]
  exact ⟨h.column_eq (List.getElem?_eq_getElem inside), h.distinct _ member, h.inside _ member⟩

theorem Holds.addColumn_run (h : b.Holds columns) (size : x.size = b.dimension)
    (size' : y.size = b.dimension) (hj : j < b.dimension) :
    ∃ z, b.addColumn x y j = .ok z ∧ z.size = b.dimension ∧
      ∀ i, z.getD i 0 = y.getD i 0 + entryOf columns i j * x.getD j 0 := by
  obtain ⟨read, distinct, inside⟩ := h.column_getD hj
  -- adding a multiple is subtracting the opposite multiple
  obtain ⟨z, run, sized, values⟩ := Substitution.foldlM_subtract distinct
    (fun i member => size' ▸ inside i member) (-x.getD j 0)
  refine ⟨z, ?_, sized.trans size', ?_⟩
  · unfold addColumn
    rw [read, checked_ok_bind, ← run, entry_getD 0 (size ▸ hj)]
    simp only [checked_ok_bind, mul_neg, sub_neg_eq_add]
  · intro i
    rw [values, mul_neg, sub_neg_eq_add]
    rfl

theorem Holds.multiply_run (h : b.Holds columns) (size : x.size = b.dimension) :
    ∃ z, b.multiply x = .ok z ∧ z.size = b.dimension ∧
      ∀ i, z.getD i 0 = ∑ j ∈ Finset.range b.dimension, entryOf columns i j * x.getD j 0 := by
  obtain ⟨z, run, sized, values⟩ := foldlM_ok (f := b.addColumn x)
    (fun done z => z.size = b.dimension ∧ ∀ i, z.getD i 0 =
      ∑ j ∈ Finset.range done.length, entryOf columns i j * x.getD j 0)
    (l := List.range b.dimension) (y := Array.replicate b.dimension 0) (by simp [Array.getD]) (by
      rintro done j rest y split ⟨sized, values⟩
      obtain ⟨rfl, bound⟩ := range_split split
      obtain ⟨z, run, sized', values'⟩ := h.addColumn_run size sized bound
      refine ⟨z, run, sized', ?_⟩
      intro i
      rw [values', values, List.length_append, List.length_singleton, Finset.sum_range_succ])
  rw [List.length_range] at values
  exact ⟨z, run, sized, values⟩

theorem Holds.multiplyTranspose_run (h : b.Holds columns) (size : y.size = b.dimension) :
    b.multiplyTranspose y = .ok ((List.range b.dimension).map fun j =>
      ∑ i ∈ Finset.range b.dimension, entryOf columns i j * y.getD i 0) := by
  apply checked_mapM
  intro j member
  obtain ⟨read, distinct, inside⟩ := h.column_getD (List.mem_range.mp member)
  rw [read, checked_ok_bind, checked_mapM (g := fun e => e.2 * y.getD e.1 0), checked_ok_bind,
    scalar_sum, Substitution.sum_line distinct inside fun i => y.getD i 0]
  · rfl
  · rintro ⟨i, a⟩ listed
    dsimp only
    rw [entry_getD 0 (size ▸ inside i (List.mem_map_of_mem (f := Prod.fst) listed))]
    rfl

/-- The products of the matrix with `x` and of its transpose with `y` are those of the dense matrix,
and they agree when each is paired with the other vector. -/
def Adjoint (b : BasisMatrix ℚ) (x y : Array ℚ) : Prop :=
  ∃ p q, b.multiply x = .ok p ∧ b.multiplyTranspose y = .ok q ∧
    p.size = b.dimension ∧ q.length = b.dimension ∧
    (∀ i : Fin b.dimension, p.getD i 0 = b.matrix.mulVec (vec b.dimension x) i) ∧
    (∀ j : Fin b.dimension, q.getD j 0 = b.matrix.transpose.mulVec (vec b.dimension y) j) ∧
    ∑ i ∈ Finset.range b.dimension, y.getD i 0 * p.getD i 0 =
      ∑ j ∈ Finset.range b.dimension, x.getD j 0 * q.getD j 0

theorem Holds.adjoint (h : b.Holds columns) (size : x.size = b.dimension)
    (size' : y.size = b.dimension) : b.Adjoint x y := by
  obtain ⟨p, run, sized, values⟩ := h.multiply_run size
  have dense : ∀ i j : Fin b.dimension, b.matrix i j = entryOf columns i j :=
    fun i j => h.entryIn_eq j.isLt
  have values' : ∀ j < b.dimension, ((List.range b.dimension).map fun j =>
      ∑ i ∈ Finset.range b.dimension, entryOf columns i j * y.getD i 0).getD j 0 =
      ∑ i ∈ Finset.range b.dimension, entryOf columns i j * y.getD i 0 := by
    intro j hj
    simp [hj]
  refine ⟨p, _, run, h.multiplyTranspose_run size', sized, by simp, ?_, ?_, ?_⟩
  · intro i
    rw [values, Finset.sum_range]
    exact Finset.sum_congr rfl fun j _ => congrArg (· * _) (dense i j).symm
  · intro j
    rw [values' j j.isLt, Finset.sum_range]
    exact Finset.sum_congr rfl fun i _ => congrArg (· * _) (dense i j).symm
  · calc ∑ i ∈ Finset.range b.dimension, y.getD i 0 * p.getD i 0
        = ∑ i ∈ Finset.range b.dimension, ∑ j ∈ Finset.range b.dimension,
            x.getD j 0 * (entryOf columns i j * y.getD i 0) := by
          apply Finset.sum_congr rfl
          intro i _
          rw [values, Finset.mul_sum]
          exact Finset.sum_congr rfl fun j _ => by ring
      _ = ∑ j ∈ Finset.range b.dimension, x.getD j 0 *
            ∑ i ∈ Finset.range b.dimension, entryOf columns i j * y.getD i 0 := by
          rw [Finset.sum_comm]
          simp only [Finset.mul_sum]
      _ = _ := by
          apply Finset.sum_congr rfl
          intro j member
          rw [values' j (Finset.mem_range.mp member)]

/-- Columns overwritten by slack columns hold the slack given to them last, the others are kept, and
the matrix passes the checks. Before and after, products with the matrix and with its transpose
agree. -/
theorem withSlacks_adjoint (accepted : b.Accepted) (within : PairsWithin b.dimension replaced)
    (slack : ℚ) (size : x.size = b.dimension) (size' : y.size = b.dimension) :
    ∃ c, b.withSlacks replaced slack = .ok c ∧ c.dimension = b.dimension ∧ c.Accepted ∧
      (∀ j < b.dimension, ∃ column, b.column j = .ok column ∧
        c.column j = .ok ((replaced.reverse.lookup j).elim column fun i => [(i, slack)])) ∧
      b.Adjoint x y ∧ c.Adjoint x y := by
  obtain ⟨columns, holds, -⟩ := accepted.holds
  have holds' := holds.slacked within slack
  refine ⟨_, holds.withSlacks_eq within slack, rfl, holds'.accepted fun _ _ _ _ => rfl, ?_,
    holds.adjoint size size', holds'.adjoint size size'⟩
  intro j hj
  refine ⟨_, (holds.column_getD hj).1, ?_⟩
  rw [← getD_slacked (holds.length.symm ▸ hj)]
  exact (holds'.column_getD hj).1

/-- Column 1 is overwritten twice, and column 2 in between. -/
theorem withSlacks_adjoint_twice :
    let b : BasisMatrix ℚ := ⟨3, ⟨#[0, 2, 3, 6], #[0, 2, 1, 0, 1, 2], #[2, 1, -1, 3, 4, 5]⟩⟩
    let x : Array ℚ := #[1, 2, 3]
    let y : Array ℚ := #[4, 0, -1 / 2]
    b.Accepted ∧ PairsWithin b.dimension [(1, 0), (2, 2), (1, 2)] ∧
    x.size = b.dimension ∧ y.size = b.dimension ∧
    ∃ c, b.withSlacks [(1, 0), (2, 2), (1, 2)] (-1) = .ok c ∧ c.Accepted ∧
      c.column 0 = .ok [(0, 2), (2, 1)] ∧ c.column 1 = .ok [(2, -1)] ∧
      b.Adjoint x y ∧ c.Adjoint x y := by
  intro b x y
  have accepted : b.Accepted := accepted_of_isOk (by decide +kernel)
  have within : PairsWithin b.dimension [(1, 0), (2, 2), (1, 2)] := by
    unfold PairsWithin
    decide
  obtain ⟨c, run, -, accepted', columns, adjoint, adjoint'⟩ :=
    withSlacks_adjoint (x := x) (y := y) accepted within (-1) rfl rfl
  have first : b.column 0 = .ok [(0, 2), (2, 1)] := by decide +kernel
  refine ⟨accepted, within, rfl, rfl, c, run, accepted', ?_, ?_, adjoint, adjoint'⟩
  · obtain ⟨column, read, read'⟩ := columns 0 (by decide)
    rw [read']
    exact read.symm.trans first
  · obtain ⟨column, -, read'⟩ := columns 1 (by decide)
    exact read'

end SimplexBasis.BasisMatrix
