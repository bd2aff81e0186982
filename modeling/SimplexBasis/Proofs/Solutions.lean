import SimplexBasis.Proofs.Singularity
import SimplexBasis.Proofs.Sparse.Answers

/-!
# Solves of a factorized basis

The solves behind a factorization answer the one solution of the system that its factors stand for,
with the basis itself if nothing was dropped. Neither the way of solving nor the calls in between
make a difference.
-/

set_option linter.unusedSectionVars false

namespace SimplexBasis

variable {n : Nat} {v : SparseVector ℚ}

namespace Engine

/-- A solve answers the solution of the system with the given matrix: what is kept of each component
at the position of its column. -/
def AnswersFtran (e : Engine ℚ) (M : Matrix (Fin n) (Fin n) ℚ) (keep : ℚ → ℚ)
    (v : SparseVector ℚ) : Prop :=
  ∃ x t z, ftran v e = .ok (x, x.count) t ∧ M.mulVec z = v.atRows n ∧
    x.Consistent ∧ x.packed = v.packed ∧ x.dimension = n ∧
    ∀ j : Fin n, ∃ p, e.positionOf j = .ok (some p) ∧ x.valueOf p = keep (z j)

/-- A transposed solve answers the solution of the system with the transposed matrix, which reads
the component of each column at its position. -/
def AnswersBtran (e : Engine ℚ) (M : Matrix (Fin n) (Fin n) ℚ) (keep : ℚ → ℚ)
    (v : SparseVector ℚ) : Prop :=
  ∃ x t y c, btran v e = .ok (x, x.count) t ∧
    (∀ j : Fin n, ∃ p, e.positionOf j = .ok (some p) ∧ c j = v.valueOf p) ∧
    M.transpose.mulVec y = c ∧ x.Consistent ∧ x.packed = v.packed ∧ x.dimension = n ∧
    ∀ i : Fin n, x.valueOf i = keep (y i)

/-- A solve with a matrix in which each column stands at its position. -/
def SolvesFtran (e : Engine ℚ) (A : Matrix (Fin n) (Fin n) ℚ) (keep : ℚ → ℚ)
    (v : SparseVector ℚ) : Prop :=
  ∃ x t z, ftran v e = .ok (x, x.count) t ∧ A.mulVec z = v.atRows n ∧
    x.Answers v keep z

def SolvesBtran (e : Engine ℚ) (A : Matrix (Fin n) (Fin n) ℚ) (keep : ℚ → ℚ)
    (v : SparseVector ℚ) : Prop :=
  ∃ x t y, btran v e = .ok (x, x.count) t ∧ A.transpose.mulVec y = v.atRows n ∧
    x.Answers v keep y

variable {e e' : Engine ℚ} {M A : Matrix (Fin n) (Fin n) ℚ} {π : Fin n ≃ Fin n} {keep : ℚ → ℚ}

theorem SolvesFtran.answers (h : e.SolvesFtran (M.submatrix id π.symm) keep v)
    (positions : ∀ j : Fin n, e.positionOf j = .ok (some (π j).val)) : e.AnswersFtran M keep v := by
  obtain ⟨x, t, z, run, system, answers⟩ := h
  refine ⟨x, t, z ∘ π, run, ?_, answers.consistent, answers.mode, answers.dimension, fun j =>
    ⟨π j, positions j, answers.values (π j)⟩⟩
  rw [← system]
  exact (Matrix.submatrix_mulVec_equiv M z id π.symm).symm

theorem SolvesBtran.answers (h : e.SolvesBtran (M.submatrix id π.symm) keep v)
    (positions : ∀ j : Fin n, e.positionOf j = .ok (some (π j).val)) : e.AnswersBtran M keep v := by
  obtain ⟨x, t, y, run, system, answers⟩ := h
  refine ⟨x, t, y, v.atRows n ∘ π, run, fun j => ⟨π j, positions j, rfl⟩, ?_, answers.consistent,
    answers.mode, answers.dimension, answers.values⟩
  rw [← system]
  ext j
  simp only [Function.comp, Matrix.mulVec, dotProduct, Matrix.transpose_apply,
    Matrix.submatrix_apply, id, Equiv.symm_apply_apply]

theorem SolvesFtran.same (h : e.SolvesFtran A keep v) (h' : e'.SolvesFtran A keep v) (det : A.det ≠ 0)
    {x x' : SparseVector ℚ × Nat} {t t' : Engine ℚ}
    (run : ftran v e = .ok x t) (run' : ftran v e' = .ok x' t') (i : Nat) :
    x.1.valueOf i = x'.1.valueOf i := by
  obtain ⟨_, _, z, ran, system, answers⟩ := h
  obtain ⟨_, _, z', ran', system', answers'⟩ := h'
  cases ran.symm.trans run
  cases ran'.symm.trans run'
  cases mulVec_unique det (system.trans system'.symm)
  exact answers.same answers' i

theorem SolvesBtran.same (h : e.SolvesBtran A keep v) (h' : e'.SolvesBtran A keep v) (det : A.det ≠ 0)
    {x x' : SparseVector ℚ × Nat} {t t' : Engine ℚ}
    (run : btran v e = .ok x t) (run' : btran v e' = .ok x' t') (i : Nat) :
    x.1.valueOf i = x'.1.valueOf i := by
  obtain ⟨_, _, y, ran, system, answers⟩ := h
  obtain ⟨_, _, y', ran', system', answers'⟩ := h'
  cases ran.symm.trans run
  cases ran'.symm.trans run'
  cases mulVec_unique (A.det_transpose.trans_ne det) (system.trans system'.symm)
  exact answers.same answers' i

end Engine

namespace SparseFactorization

variable {q r s t : SparseFactorization ℚ} {b : BasisMatrix ℚ} {columns : List (List (Nat × ℚ))}
  {all : List (Stage ℚ)} {context : Context ℚ} {announced lowerHint upperHint : Nat}

/-! ### Behind a factorization -/

theorem Factorized.solvable (h : Factorized s columns all) (prepared : Prepared s)
    (pending : s.pending = none)
    (pivots : ∀ k < s.dimension, s.factors.inverses.getD k 0 ≠ 0) : Solvable s all := by
  have triangular := h.derived.triangular
  have length : all.length = s.dimension := Nat.le_antisymm triangular.length_le h.full
  have bounded : s.Bounded := by
    constructor
    · rw [SparseFactorization.pivots, h.etas]
      exact Nat.zero_le _
    · rw [h.etas]
      exact Nat.zero_le _
  refine ⟨h.phase, pending, bounded, length, triangular, fun st member zero => ?_, ?_, ?_,
    prepared.workspace⟩
  · obtain ⟨k, hk, rfl⟩ := List.getElem_of_mem member
    refine pivots k (length ▸ hk) ?_
    rw [h.factors]
    simp [Factors.numbered, Factors.ofStages, Array.getD, hk, zero]
  · rw [h.factors]
  · rw [h.factors]
    exact fun t found => absurd found.symm (Option.some_ne_none t)

theorem Solvable.solves (h : Solvable s all) (etas : s.etas = .empty) (consistent : v.Consistent)
    (dimension : v.dimension = s.dimension) :
    (Engine.sparse s).SolvesFtran (s.factors.positioned s.dimension)
        (kept s.options.zeroTolerance) v ∧
      (Engine.sparse s).SolvesBtran (s.factors.positioned s.dimension)
        (kept s.options.zeroTolerance) v := by
  have none_ : s.etas.rows.size = 0 := by rw [etas]; rfl
  have unpacked := SparseVector.Consistent.packed_unpack v
  have size := SparseVector.Consistent.dimension_unpack v
  constructor
  · obtain ⟨u, found, mode, size, system, solve⟩ := h.ftran_run consistent dimension
    obtain ⟨x, t, run, answers⟩ := solve u 0 (by rw [none_]; rfl) found mode size
    exact ⟨x, _, _, Engine.dispatch_sparse_run run, system, answers⟩
  · obtain ⟨x, t, y, run, system, answers⟩ := h.btran_run dimension (u := v.unpack)
      (by rw [none_]; rfl) (size.trans dimension) unpacked
      (fun i member => dimension ▸ size ▸ consistent.unpack.inside i member)
      (fun _ => consistent.unpack.covers unpacked)
    exact ⟨x, _, y, Engine.dispatch_sparse_run run,
      system.trans (funext fun i => (consistent.valueOf_unpack i).symm), answers⟩

theorem Solvable.of_numbered {κ : Type} (h : Solvable s all) (read : Factors ℚ → κ)
    (blind : ∀ f t, read { f with transposes := t } = read f) :
    read s.factors = read (Factors.numbered s.dimension all) :=
  (congrArg read h.factors).trans (blind _ _)

/-- Solves behind a factorization, whatever was called in between. -/
theorem Continued.solves (calls : Continued s t) (h : Solvable s all) (etas : s.etas = .empty) :
    t.factors.positionOf = s.factors.positionOf ∧
      ∀ v : SparseVector ℚ, v.Consistent → v.dimension = s.dimension →
        (Engine.sparse t).SolvesFtran (s.factors.positioned s.dimension)
            (kept s.options.zeroTolerance) v ∧
          (Engine.sparse t).SolvesBtran (s.factors.positioned s.dimension)
            (kept s.options.zeroTolerance) v := by
  have later := h.continued calls
  have same : t.dimension = s.dimension := later.length.symm.trans h.length
  have region := calls.region h
  simp only [SparseFactorization.region, Prod.mk.injEq] at region
  refine ⟨?_, fun v consistent dimension => ?_⟩
  · rw [later.of_numbered Factors.positionOf fun _ _ => rfl, same,
      h.of_numbered Factors.positionOf fun _ _ => rfl]
  · have solves := later.solves (region.2.2.1.trans etas) consistent (dimension.trans same.symm)
    rwa [later.of_numbered Factors.positioned fun _ _ => rfl, region.1, same,
      ← h.of_numbered Factors.positioned fun _ _ => rfl] at solves

theorem Factorized.matrix_eq (h : Factorized s columns all) (holds : b.Holds columns)
    (solvable : Solvable s all) (dimension : s.dimension = b.dimension)
    (exact_ : s.options.zeroTolerance = 0) : s.factors.matrix b.dimension = b.matrix := by
  have complete := solvable.complete
  rw [dimension] at complete
  refine placed_ordered complete.rows complete.cols _ fun p q => ?_
  have bound := h.close_of_pivots holds dimension exact_.ge solvable.pivots p q
  rw [exact_, mul_zero] at bound
  exact (sub_eq_zero.mp (abs_nonpos_iff.mp bound)).symm

/-- The first column of the matrix whose lines have to be moved. -/
def crowdedColumn : SparseVector ℚ := .ofDense #[-2, 1, 0, 1, 0]

theorem det_crowded : crowded.matrix.det ≠ 0 := by
  let inverse : Matrix (Fin 5) (Fin 5) ℚ := (1 / 280 : ℚ) • !![-48, -56, 44, 240, -32;
    40, 0, 10, 80, -20; -24, 112, -48, -160, -16; 24, -112, 118, 160, 16; -8, -56, 54, 40, 88]
  exact Matrix.det_ne_zero_of_right_inverse (B := inverse) (by decide +kernel)

end SparseFactorization

end SimplexBasis
