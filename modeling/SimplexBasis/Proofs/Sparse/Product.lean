import SimplexBasis.Proofs.Rank
import SimplexBasis.Proofs.Sparse.Loading

/-!
# The product of the factors

A factorization that succeeds holds triangular factors whose product is the basis, with its rows and
columns in the order of their pivots, apart from what was dropped on the way. One that finds the
basis singular holds as many pivots as the basis has independent columns.
-/

set_option linter.unusedSectionVars false

namespace SimplexBasis

namespace BasisMatrix

open SparseFactorization (entryOf NoZeros)

/-- The matrix. -/
def matrix (b : BasisMatrix ℚ) : Matrix (Fin b.dimension) (Fin b.dimension) ℚ :=
  .of fun i j => b.columns.entryIn j i

/-- The matrix with its rows and columns in given orders. -/
def ordered (b : BasisMatrix ℚ) (rows cols : Array Nat) :
    Matrix (Fin b.dimension) (Fin b.dimension) ℚ :=
  .of fun s t => b.columns.entryIn (cols.getD t 0) (rows.getD s 0)

variable {b : BasisMatrix ℚ} {columns : List (List (Nat × ℚ))} {i j : Nat}

theorem Holds.entryIn_eq (h : b.Holds columns) (hj : j < b.dimension) :
    b.columns.entryIn j i = entryOf columns i j := by
  have inside : j < columns.length := h.length ▸ hj
  unfold Compressed.entryIn entryOf
  rw [h.stored, Compressed.line_ofLines columns j inside]
  simp [List.getD, inside]

theorem Accepted.exists_columns (accepted : b.Accepted) (entries : b.NoZeros) :
    ∃ columns, b.Holds columns ∧ SparseFactorization.NoZeros columns := by
  obtain ⟨columns, holds, nonzero⟩ := accepted.holds
  refine ⟨columns, holds, fun column member e inside => ?_⟩
  exact bne_iff_ne.mp (nonzero entries column member e inside)

end BasisMatrix

/-- Pivots for `n` rows and columns, with the columns of a unit lower and the rows of an upper
triangular matrix. -/
structure Factors.Complete (f : Factors ℚ) (n : Nat) : Prop where
  rows : f.pivotRows.toList.Perm (List.range n)
  cols : f.pivotCols.toList.Perm (List.range n)
  lower : f.lower.Beyond n
  upper : f.upper.Beyond n
  inverses : f.inverses.size = n
  nonzero : ∀ k < n, f.inverses.getD k 0 ≠ 0

namespace SparseFactorization

section Load

variable {α : Type} [Scalar α] {s t : SparseFactorization α} {b : BasisMatrix α}

theorem factor_ready_ends [LawfulCounts α] {columns : List (List (Nat × α))} (prepared : Prepared s)
    (ready : Loaded s columns ∨ s.pending = some .outOfMemory) (context : Context α) :
    Ends (fun _ t => Prepared t ∧ t.options = s.options ∧ t.dimension = s.dimension ∧
        ∃ all, Factorized t columns all)
      (fun e t => Prepared t ∧ t.options = s.options ∧ t.dimension = s.dimension ∧
        t.phase = .idle ∧ (e = .outOfMemory ∨ e = .singular ∧ ∃ all, Singular t columns all))
      (factor context s) := by
  rcases ready with loaded | pending
  · exact (factor_ends loaded context).mono (fun _ _ => id)
      fun _ _ ⟨prepared, options, dimension, phase, found⟩ =>
        ⟨prepared, options, dimension, phase, found.imp_left And.left⟩
  · unfold factor
    rw [modify_bind, get_bind]
    dsimp only
    rw [pending]
    dsimp only
    rw [modify_bind, bind_of_ok (log_run _ _)]
    exact ⟨⟨prepared.workspace, prepared.sized, prepared.addressable⟩, rfl, rfl, rfl, .inl rfl⟩

theorem factor_loaded [LawfulCounts α] {r : SparseFactorization α}
    {columns : List (List (Nat × α))} (h : Prepared r) (holds : b.Holds columns)
    (spares : r.options.SparesWithin b.dimension) (run : load b r = .ok () s)
    (context : Context α) :
    Ends (fun _ t => Prepared t ∧ t.options = r.options ∧ t.dimension = b.dimension ∧
        ∃ all, Factorized t columns all)
      (fun e t => Prepared t ∧ t.options = r.options ∧ t.dimension = b.dimension ∧
        t.phase = .idle ∧ (e = .outOfMemory ∨ e = .singular ∧ ∃ all, Singular t columns all))
      (factor context s) := by
  obtain ⟨prepared, options, dimension, -, -, ready⟩ :=
    (load_ends h holds (spacious_of_spares spares)).result run
  rw [← options, ← dimension]
  exact factor_ready_ends prepared ready context

end Load

variable {r s t : SparseFactorization ℚ} {b : BasisMatrix ℚ} {columns : List (List (Nat × ℚ))}
  {context : Context ℚ} {announced lowerHint upperHint : Nat}

theorem Factorized.complete {all : List (Stage ℚ)} (h : Factorized t columns all)
    (nonneg : 0 ≤ t.options.zeroTolerance) (entries : NoZeros columns) :
    all.length = t.dimension ∧ t.factors.Complete t.dimension := by
  have triangular := h.pivoted.triangular
  have length : all.length = t.dimension := Nat.le_antisymm triangular.length_le h.full
  have pivots := h.pivoted.nonzero nonneg entries
  rw [h.factors]
  rw [← length] at triangular ⊢
  refine ⟨rfl, triangular.rows_perm le_rfl, triangular.cols_perm le_rfl,
    Factors.beyond_lower triangular, Factors.beyond_upper triangular,
    by simp [Factors.numbered, Factors.ofStages], fun k hk => ?_⟩
  have inverse : (Factors.numbered all.length all).inverses.getD k 0 = 1 / all[k].pivot := by
    simp [Factors.numbered, Factors.ofStages, Array.getD, hk]
  rw [inverse]
  exact one_div_ne_zero (pivots _ (List.getElem_mem hk))

/-- The factors make up the basis in the order of the pivots, up to the tolerance for each of the
stages before. -/
theorem Factorized.close_of_pivots {all : List (Stage ℚ)} (h : Factorized t columns all)
    (holds : b.Holds columns) (dimension : t.dimension = b.dimension)
    (nonneg : 0 ≤ t.options.zeroTolerance) (pivots : ∀ st ∈ all, st.pivot ≠ 0)
    (p q : Fin b.dimension) :
    |b.ordered t.factors.pivotRows t.factors.pivotCols p q -
        (t.factors.lowerMatrix b.dimension * t.factors.upperMatrix b.dimension) p q| ≤
      min p.val q.val * t.options.zeroTolerance := by
  have triangular := h.pivoted.triangular
  have length : all.length = t.dimension := Nat.le_antisymm triangular.length_le h.full
  have balance := h.pivoted.accounts nonneg pivots h.full
  rw [h.factors]
  rw [← length] at triangular balance
  obtain ⟨n, c⟩ := b
  obtain rfl : all.length = n := length.trans dimension
  have rows : (Factors.numbered t.dimension all).pivotRows.getD p 0 = (all.get p).row := by
    simp [Factors.numbered, Factors.ofStages, Array.getD]
  have cols : (Factors.numbered t.dimension all).pivotCols.getD q 0 = (all.get q).col := by
    simp [Factors.numbered, Factors.ofStages, Array.getD]
  have row : (all.get p).row < all.length := (triangular.fits (List.getElem_mem p.isLt)).1
  have col : (all.get q).col < all.length := (triangular.fits (List.getElem_mem q.isLt)).2
  have entry := balance (all.get p).row row (all.get q).col col
  rw [Factors.mul_apply triangular, BasisMatrix.ordered, Matrix.of_apply, rows, cols,
    holds.entryIn_eq col]
  rw [Factors.reductionsAt_eq triangular, sub_zero] at entry
  exact_mod_cast entry

theorem Factorized.close {all : List (Stage ℚ)} (h : Factorized t columns all)
    (holds : b.Holds columns) (dimension : t.dimension = b.dimension)
    (nonneg : 0 ≤ t.options.zeroTolerance) (entries : NoZeros columns)
    (p q : Fin b.dimension) :
    |b.ordered t.factors.pivotRows t.factors.pivotCols p q -
        (t.factors.lowerMatrix b.dimension * t.factors.upperMatrix b.dimension) p q| ≤
      min p.val q.val * t.options.zeroTolerance :=
  h.close_of_pivots holds dimension nonneg (h.pivoted.nonzero nonneg entries) p q

/-- Whatever state a basis without stored zeros is announced and loaded in, the factors of a
factorization that succeeds make up the basis. -/
theorem product_of_factors (accepted : b.Accepted) (entries : b.NoZeros)
    (nonneg : 0 ≤ r.options.zeroTolerance) (spares : r.options.SparesWithin b.dimension)
    (allocated : allocate announced lowerHint upperHint r = .ok () s)
    {u : SparseFactorization ℚ} (loaded : load b s = .ok () t)
    (factored : factor context t = .ok () u) :
    let f := u.factors
    let L := f.lowerMatrix b.dimension
    let U := f.upperMatrix b.dimension
    let A := b.ordered f.pivotRows f.pivotCols
    f.Complete b.dimension ∧ L.IsLowerTriangular ∧ U.IsUpperTriangular ∧
      (∀ p q, |A p q - (L * U) p q| ≤ min p.val q.val * r.options.zeroTolerance) ∧
      (r.options.zeroTolerance = 0 → A = L * U) := by
  obtain ⟨columns, holds, nonzero⟩ := accepted.exists_columns entries
  obtain ⟨prepared, options⟩ := (allocate_ends _ _ _ _).result allocated
  obtain ⟨-, options', dimension, all, factorized⟩ :=
    (factor_loaded prepared holds (options ▸ spares) loaded context).result factored
  rw [← options, ← options'] at nonneg ⊢
  have complete := (factorized.complete nonneg nonzero).2
  rw [dimension] at complete
  have close := factorized.close holds dimension nonneg nonzero
  refine ⟨complete, Factors.isLowerTriangular_lowerMatrix complete.lower,
    Factors.isUpperTriangular_upperMatrix complete.upper, close, fun exact_ => ?_⟩
  ext p q
  have bound := close p q
  rw [exact_, mul_zero] at bound
  exact sub_eq_zero.mp (abs_nonpos_iff.mp bound)

/-- A matrix that takes one elimination. -/
def twoByTwo : BasisMatrix ℚ := ⟨2, .ofLines [[(0, 2), (1, 1)], [(0, 1), (1, 1)]]⟩

/-- Nothing is dropped. -/
def exactly : Options ℚ := { Options.standard with zeroTolerance := 0 }

theorem product_of_two_by_two : ∃ s t u, allocate 2 4 4 (new exactly) = .ok () s ∧
    load twoByTwo s = .ok () t ∧ factor ⟨defaultTarget, id⟩ t = .ok () u ∧
    twoByTwo.ordered u.factors.pivotRows u.factors.pivotCols =
      u.factors.lowerMatrix twoByTwo.dimension * u.factors.upperMatrix twoByTwo.dimension := by
  obtain ⟨_, u, run, -⟩ := @exists_ok_of_check _ _ (do
      allocate 2 4 4
      load twoByTwo
      factor ⟨defaultTarget, id⟩ : Action (SparseFactorization ℚ) Unit) (new exactly)
    (fun _ _ => true) (by decide +kernel)
  obtain ⟨_, s, allocated, rest⟩ := ok_of_bind run
  obtain ⟨_, t, loaded, factored⟩ := ok_of_bind rest
  exact ⟨s, t, u, allocated, loaded, factored,
    (product_of_factors (BasisMatrix.accepted_of_isOk (by decide +kernel)) (by decide +kernel)
      (by decide +kernel) (by decide +kernel) allocated loaded factored).2.2.2.2 rfl⟩

/-- A stretch that asks for more than a word makes lines overlap when the files are compressed. -/
def boundless : Options ℚ :=
  { Options.standard with
    zeroTolerance := 0, stretch := 10 ^ 300, pad := 0, denseBreakoverThreshold := none }

/-- A basis whose lines have to be moved. -/
def crowded : BasisMatrix ℚ :=
  ⟨5, .ofLines [[(1, 1), (3, 1), (0, -2)], [(1, 4), (3, 2), (4, 2), (0, 4)],
    [(2, 4), (1, 4), (0, -1)], [(3, -1), (4, -2), (2, 4)], [(1, 2), (3, 1), (4, 4)]]⟩

/-- Without the bound on the spare entries, factors of a basis without stored zeros need not make up
the basis, although nothing is dropped. -/
theorem product_fails_of_overlap : ∃ s t u, crowded.Accepted ∧ crowded.NoZeros ∧
    allocate 5 300 16 (new boundless) = .ok () s ∧ load crowded s = .ok () t ∧
    factor ⟨defaultTarget, id⟩ t = .ok () u ∧
    crowded.ordered u.factors.pivotRows u.factors.pivotCols ≠
      u.factors.lowerMatrix crowded.dimension * u.factors.upperMatrix crowded.dimension := by
  obtain ⟨_, u, run, check⟩ := @exists_ok_of_check _ _ (do
      allocate 5 300 16
      load crowded
      factor ⟨defaultTarget, id⟩ : Action (SparseFactorization ℚ) Unit) (new boundless)
    (fun _ u => decide (crowded.ordered u.factors.pivotRows u.factors.pivotCols (0 : Fin 5)
      (4 : Fin 5) ≠ (u.factors.lowerMatrix crowded.dimension *
        u.factors.upperMatrix crowded.dimension) (0 : Fin 5) (4 : Fin 5))) (by decide +kernel)
  obtain ⟨_, s, allocated, rest⟩ := ok_of_bind run
  obtain ⟨_, t, loaded, factored⟩ := ok_of_bind rest
  refine ⟨s, t, u, BasisMatrix.accepted_of_isOk (by decide +kernel), by decide +kernel, allocated,
    loaded, factored, fun same => of_decide_eq_true check ?_⟩
  rw [same]

end SparseFactorization

end SimplexBasis
