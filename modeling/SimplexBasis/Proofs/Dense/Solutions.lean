import SimplexBasis.Proofs.Dense.Replacements
import SimplexBasis.Proofs.Solutions
import SimplexBasis.Proofs.Usage

/-!
# Dense solves of a factorized basis

A dense factorization that succeeds has found the basis to be nonsingular, with any tolerance for
its pivots. The solves behind it answer the solutions for the basis; only what is below the tolerance
in a solution is answered as zero.
-/

set_option linter.unusedSectionVars false

namespace SimplexBasis

open Engine (dense InUse)

namespace DenseFactorization

variable {b : BasisMatrix ℚ} {q r s t : DenseFactorization ℚ} {e : Dense.Elimination ℚ}
  {context : Context ℚ} {announced n : Nat} {f : Engine ℚ} {v : SparseVector ℚ}

/-- Whatever state a basis is announced and loaded in, a factorization that succeeds leaves factors
of the basis with its columns at their positions. -/
theorem solvable_of_factor (accepted : b.Accepted) (tolerant : 0 ≤ q.options.zeroTolerance)
    (allocated : allocate announced q = .ok () r) (loaded : load b r = .ok () s)
    (factored : factor context s = .ok () t) : t.options = q.options ∧
      ∃ (e : Dense.Elimination ℚ) (h : Solvable t e ([] : List (Overwriting b.dimension))),
        positioned b.dimension e =
          b.matrix.submatrix id (position h.shape.rows h.shape.cols).symm := by
  obtain ⟨columns, holds, -⟩ := accepted.holds
  obtain ⟨options, -⟩ := (allocate_ends _ _).result allocated
  obtain ⟨same, size, ready⟩ := (load_ends holds r).result loaded
  obtain ⟨same', size', valid, e, eliminated, full⟩ := (factor_ends ready _).result factored
  have unloaded := ((factor_loaded_ends ready.loaded).result factored).1
  have kept : t.options = q.options := same'.trans (same.trans options)
  have tolerant : 0 ≤ t.options.zeroTolerance := kept ▸ tolerant
  have dimension : t.dimension = b.dimension := size'.trans size
  have full : e.rank = t.dimension := full.trans size'.symm
  have solvable := eliminated.solvable dimension unloaded valid full tolerant
  refine ⟨kept, e, solvable, ?_⟩
  rw [← eliminated.placed_eq holds dimension full tolerant]
  exact placed_position solvable.shape.rows solvable.shape.cols

theorem Solvable.factored {etas : List (Overwriting n)} (h : Solvable t e etas) :
    (dense t).Factored :=
  ⟨h.loaded, h.valid, _, h.order, h.dimension ▸ h.shape.rows⟩

theorem Solvable.solves (h : Solvable t e ([] : List (Overwriting n))) (consistent : v.Consistent)
    (dimension : v.dimension = n) :
    (dense t).SolvesFtran (positioned n e) (cutBelow t.options.zeroTolerance) v ∧
      (dense t).SolvesBtran (positioned n e) (cutBelow t.options.zeroTolerance) v := by
  have nothing : Explains (positioned n e) [] ([] : List (Overwriting n)) :=
    fun k r w here => by simp at here
  obtain ⟨x, u, z, run, system, answers⟩ := h.ftran_run nothing rfl consistent dimension
  obtain ⟨y, u', z', run', system', answers'⟩ := h.btran_run nothing rfl consistent dimension
  exact ⟨⟨x, _, z, Engine.dispatch_dense_run run, system, answers⟩,
    y, _, z', Engine.dispatch_dense_run run', system', answers'⟩

/-- Whatever state a basis is announced and loaded in: if a factorization succeeds, the basis is
nonsingular, and all solves before a column is replaced answer its solutions, less what is below the
tolerance. -/
theorem solutions_of_use (accepted : b.Accepted) (tolerant : 0 ≤ q.options.zeroTolerance)
    (allocated : allocate announced q = .ok () r) (loaded : load b r = .ok () s)
    (factored : factor context s = .ok () t) (use : InUse (dense t) [] f) :
    b.matrix.det ≠ 0 ∧ ∀ v : SparseVector ℚ, v.Consistent → v.dimension = b.dimension →
      f.AnswersFtran b.matrix (cutBelow q.options.zeroTolerance) v ∧
        f.AnswersBtran b.matrix (cutBelow q.options.zeroTolerance) v := by
  obtain ⟨options, e, solvable, positioned_⟩ :=
    solvable_of_factor accepted tolerant allocated loaded factored
  have det := solvable.det_positioned_ne_zero
  rw [positioned_, Matrix.det_permute'] at det
  refine ⟨right_ne_zero_of_mul det, fun v consistent dimension => ?_⟩
  have same := use.same solvable.factored rfl
  cases f with
  | sparse u => exact same.elim
  | dense u =>
    have later := solvable.of_holding same
    have tolerance : u.options.zeroTolerance = q.options.zeroTolerance :=
      (zeroTolerance_of_holding same).trans (congrArg Options.zeroTolerance options)
    have solves := later.solves consistent dimension
    rw [positioned_, tolerance] at solves
    exact ⟨solves.1.answers later.positionOf_eq, solves.2.answers later.positionOf_eq⟩

/-- A tolerance that some components of solutions fall below. -/
def coarse : Options ℚ := { Options.standard with zeroTolerance := 1 / 2 }

/-- The second component of the first solution is a third. -/
theorem solutions_of_coarse : ∃ r s t f, allocate 2 (new coarse) = .ok () r ∧
    load Engine.pair r = .ok () s ∧ factor .standard s = .ok () t ∧ InUse (dense t) [] f ∧
    Engine.pair.matrix.det ≠ 0 ∧
    f.AnswersFtran Engine.pair.matrix (cutBelow (1 / 2)) (.ofDense #[2, 2]) ∧
    f.AnswersBtran Engine.pair.matrix (cutBelow (1 / 2)) (.ofDense #[2, 2]) := by
  obtain ⟨⟨t, x⟩, u, run, -⟩ := @exists_ok_of_check _ _ (do
      allocate 2
      load Engine.pair
      factor .standard
      let t ← get
      let x ← ftran (.ofDense #[1, 0])
      return (t, x) : Action (DenseFactorization ℚ)
        (DenseFactorization ℚ × SparseVector ℚ × Nat)) (new coarse) (fun _ _ => true)
    (by decide +kernel)
  obtain ⟨_, r, allocated, rest⟩ := ok_of_bind run
  obtain ⟨_, s, loaded, rest⟩ := ok_of_bind rest
  obtain ⟨_, t', factored, rest⟩ := ok_of_bind rest
  rw [get_bind] at rest
  obtain ⟨x', u', solved, ⟨⟩⟩ := ok_of_bind rest
  have ran : Engine.Call.run (.ftran (.ofDense #[1, 0])) (dense t) =
      .ok (.solution x.1 x.2) (dense u) := bind_of_ok (Engine.dispatch_dense_run solved)
  have use : InUse (dense t) [] (dense u) := .answered .start rfl ran
  obtain ⟨det, solves⟩ := solutions_of_use (BasisMatrix.accepted_of_isOk (by decide +kernel))
    (show (0 : ℚ) ≤ 1 / 2 by norm_num) allocated loaded factored use
  have given := solves (.ofDense #[2, 2]) (.ofDense _) rfl
  exact ⟨r, s, t, dense u, allocated, loaded, factored, use, det, given.1, given.2⟩

end DenseFactorization

end SimplexBasis
