import SimplexBasis.Proofs.Sparse.Solutions
import SimplexBasis.Proofs.Systems

/-!
# Answers

What the solves of a completed factorization answer: the solution of the system that the factors and
the etas stand for, each component at the position of its column.
-/

set_option linter.unusedSectionVars false

namespace SimplexBasis

variable {n : Nat}

namespace Factors

variable {f : Factors ℚ} {u v : SparseVector ℚ} {w : Workspace ℚ}

/-- The matrix that the factors stand for. -/
def matrix (f : Factors ℚ) (n : Nat) : Matrix (Fin n) (Fin n) ℚ :=
  placed f.pivotRows f.pivotCols (f.productMatrix n)

def positioned (f : Factors ℚ) (n : Nat) : Matrix (Fin n) (Fin n) ℚ :=
  placed f.pivotRows f.pivotRows (f.productMatrix n)

theorem Complete.det_productMatrix_ne_zero (h : f.Complete n) : (f.productMatrix n).det ≠ 0 := by
  rw [productMatrix, Matrix.det_mul,
    Matrix.det_of_isLowerTriangular _ (isLowerTriangular_lowerMatrix h.lower),
    Matrix.det_of_isUpperTriangular (isUpperTriangular_upperMatrix h.upper)]
  refine mul_ne_zero (Finset.prod_ne_zero_iff.mpr fun k _ => ?_)
    (Finset.prod_ne_zero_iff.mpr fun k _ => ?_)
  · rw [lowerMatrix, Matrix.of_apply, if_pos rfl]
    exact one_ne_zero
  · rw [upperMatrix, Matrix.of_apply, if_pos rfl]
    exact one_div_ne_zero (h.nonzero k k.isLt)

theorem Complete.det_positioned_ne_zero (h : f.Complete n) : (f.positioned n).det ≠ 0 :=
  det_placed_ne_zero h.rows h.rows h.det_productMatrix_ne_zero

theorem Complete.positioned_eq (h : f.Complete n) :
    f.positioned n = (f.matrix n).submatrix id (position h.rows h.cols).symm :=
  placed_position h.rows h.cols

theorem Solves.positioned (solves : f.Solves n (f.LowerUpper n) v u w) (usable : f.Usable n)
    (complete : f.Complete n) (covers : ∀ i, v.elements.getD i 0 ≠ 0 → i ∈ v.indices)
    (mode : v.packed = false) : u.Consistent ∧ u.packed = false ∧ u.dimension = n ∧
      (f.positioned n).mulVec (vec n u.elements) = vec n v.elements := by
  obtain ⟨consistent, mode', dimension, bs, xs, system, left, right⟩ :=
    solves.solution_eq usable covers mode
  refine ⟨consistent, mode', dimension, (placed_mulVec_iff complete.rows complete.rows).mpr ?_⟩
  exact (congrArg _ left).trans ((system.mulVec complete).trans right.symm)

theorem Solves.positioned_transpose (solves : f.Solves n (f.UpperLower n) v u w)
    (usable : f.Usable n) (complete : f.Complete n)
    (covers : ∀ i, v.elements.getD i 0 ≠ 0 → i ∈ v.indices)
    (mode : v.packed = false) : u.Consistent ∧ u.packed = false ∧ u.dimension = n ∧
      (f.positioned n).transpose.mulVec (vec n u.elements) = vec n v.elements := by
  obtain ⟨consistent, mode', dimension, bs, xs, system, left, right⟩ :=
    solves.solution_eq usable covers mode
  refine ⟨consistent, mode', dimension, ?_⟩
  rw [Factors.positioned, transpose_placed]
  refine (placed_mulVec_iff complete.rows complete.rows).mpr ?_
  exact (congrArg _ left).trans ((system.mulVec complete).trans right.symm)

end Factors

namespace SparseFactorization

variable {s : SparseFactorization ℚ} {all : List (Stage ℚ)} {v : SparseVector ℚ}

theorem Solvable.positionOf_eq (h : Solvable s all) (j : Fin s.dimension) :
    s.factors.positionOf j =
      .ok (some (position h.complete.rows h.complete.cols j).val) := by
  obtain ⟨k, rfl⟩ := chosen_surjective h.complete.cols j
  have stages : s.factors.stageOfCol =
      (Array.range s.dimension).map fun j => (all.map Stage.col).idxOf? j := by rw [h.factors]; rfl
  have rows : s.factors.pivotRows = (all.map Stage.row).toArray := by rw [h.factors]; rfl
  have cols : s.factors.pivotCols = (all.map Stage.col).toArray := by rw [h.factors]; rfl
  have read := Factors.positionOf_eq h.triangular h.length.ge stages rows k.isLt
  rw [← rows, ← cols] at read
  rw [position_chosen]
  exact read

theorem Solvable.ftran_run (h : Solvable s all) (consistent : v.Consistent)
    (dimension : v.dimension = s.dimension) : ∃ u : SparseVector ℚ,
      u.Consistent ∧ u.packed = false ∧ u.dimension = s.dimension ∧
      (s.factors.positioned s.dimension).mulVec (vec s.dimension u.elements) =
        v.atRows s.dimension ∧
      ∀ u' flops, (List.range s.etas.rows.size).foldlM s.etas.apply (u, 0) = .ok (u', flops) →
        u'.Consistent → u'.packed = false → u'.dimension = s.dimension →
        ∃ x t, SparseFactorization.ftran v s = .ok (x, x.count) t ∧
          x.Answers v (kept s.options.zeroTolerance) (vec s.dimension u'.elements) := by
  have size := (SparseVector.Consistent.dimension_unpack v).trans dimension
  have unpacked := SparseVector.Consistent.packed_unpack v
  obtain ⟨u, t, run, same, solves⟩ := (h.standing.solveFactors_run h.workspace size
    (fun i member => size ▸ consistent.unpack.inside i member) v.unpack.count).1
  obtain ⟨found, mode, size', system⟩ :=
    solves.positioned h.standing.usable h.complete (fun _ => consistent.unpack.covers unpacked)
      unpacked
  refine ⟨u, found, mode, size', ?_, fun u' flops applied found' mode' size'' => ?_⟩
  · rw [system]
    exact funext fun i => (consistent.valueOf_unpack i).symm
  · obtain ⟨x, ran, cleans⟩ :=
      ftran_of_parts h.phase h.bounded dimension run same applied found' mode'
    exact ⟨x, _, ran, cleans.answers ⟨found', mode', size''⟩⟩

theorem Solvable.btran_run (h : Solvable s all) (dimension : v.dimension = s.dimension)
    {u : SparseVector ℚ} {flops : Nat}
    (applied : (List.range s.etas.rows.size).reverse.foldlM s.etas.applyTranspose (v.unpack, 0) =
      .ok (u, flops)) (size : u.elements.size = s.dimension) (mode : u.packed = false)
    (inside : ∀ i ∈ u.indices, i < s.dimension)
    (covers : ∀ i, u.elements.getD i 0 ≠ 0 → i ∈ u.indices) : ∃ x t y,
      SparseFactorization.btran v s = .ok (x, x.count) t ∧
      (s.factors.positioned s.dimension).transpose.mulVec y = vec s.dimension u.elements ∧
      x.Answers v (kept s.options.zeroTolerance) y := by
  have h₁ : Solvable (s.counted flops) all := h.of_holding rfl h.workspace
  obtain ⟨w, t, run, same, solves⟩ := (h₁.standing.solveFactors_run h₁.workspace
    (v := nonzeros u) size (fun i member => inside i (mem_nonzeros.mp member).1)
    (nonzeros u).count).2
  obtain ⟨found, mode', size', system⟩ := solves.positioned_transpose h₁.standing.usable
    h₁.complete (fun i nonzero => mem_nonzeros.mpr
      ⟨covers i nonzero, beq_eq_false_iff_ne.mpr nonzero⟩) mode
  obtain ⟨x, ran, cleans⟩ := btran_of_parts h.phase h.bounded dimension applied run same found mode'
  exact ⟨x, t, _, ran, system, cleans.answers ⟨found, mode', size'⟩⟩

end SparseFactorization

end SimplexBasis
