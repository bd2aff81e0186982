import SimplexBasis.Proofs.Engine
import SimplexBasis.Proofs.Rank

/-!
# Detection of singular bases

Without rounding and without dropping, both engines find as many pivots as the basis has independent
columns, whatever the other options are. A factorization succeeds exactly when the basis is
nonsingular, unless it runs out of space.
-/

set_option linter.unusedSectionVars false

namespace SimplexBasis

open SparseFactorization (entryOf NoZeros)

variable {b : BasisMatrix ℚ} {columns : List (List (Nat × ℚ))}

theorem BasisMatrix.Holds.matrix_eq (h : b.Holds columns) :
    b.matrix = .of fun i j : Fin b.dimension => entryOf columns i j := by
  ext i j
  exact h.entryIn_eq j.isLt

theorem SparseFactorization.Pivoted.rank_eq {all : List (Stage ℚ)}
    (h : Pivoted 0 b.dimension columns all) (holds : b.Holds columns) (entries : NoZeros columns) :
    b.matrix.rank = all.length := by
  rw [holds.matrix_eq]
  exact rank_eq_length h.triangular (h.nonzero le_rfl entries) (h.exhaustive rfl entries)

namespace DenseFactorization

variable {d : DenseFactorization ℚ} {e : Dense.Elimination ℚ}

def stages (n : Nat) (e : Dense.Elimination ℚ) : List (Stage ℚ) :=
  e.stagesOf n (Array.range n) (Array.range n)

@[simp] theorem length_stages (n : Nat) (e : Dense.Elimination ℚ) :
    (stages n e).length = e.rank := by
  simp [stages, Dense.Elimination.stagesOf]

theorem Eliminated.triangular (h : Eliminated d columns e) :
    Triangular d.dimension (stages d.dimension e) :=
  have none_ : Triangular d.dimension ([] : List (Stage ℚ)) := .nil
  Dense.Elimination.triangular_stagesOf h.shape (by simp) (by simp)
    (by simpa using List.nodup_range) (by simpa using List.nodup_range) none_ (by simp) (by simp)
    h.rank

theorem Eliminated.pivots_ne_zero (h : Eliminated d columns e)
    (exact_ : d.options.zeroTolerance = 0) : ∀ st ∈ stages d.dimension e, st.pivot ≠ 0 := by
  intro st member
  obtain ⟨k, hk, rfl⟩ := List.mem_map.mp member
  exact h.pivots exact_.ge k (List.mem_range.mp hk)

theorem Eliminated.accounts (h : Eliminated d columns e) (exact_ : d.options.zeroTolerance = 0) :
    Accounts 0 (entryOf columns) d.dimension (stages d.dimension e) fun _ _ => 0 := by
  have nothing : Accounts 0 (entryOf columns) d.dimension ([] : List (Stage ℚ))
      (entryOf columns) := by simp [Accounts, productAt]
  suffices all : Accounts 0 (entryOf columns) d.dimension
      ([] ++ e.stagesOf d.dimension (.range d.dimension) (.range d.dimension)) fun _ _ => 0 from all
  refine Dense.Elimination.accounts_stagesOf h.shape
    (by simp) (by simp) (by simpa using List.nodup_range) (by simpa using List.nodup_range) h.rank
    le_rfl nothing ?_ ?_ ?_
  · intro i hi j hj apart
    simp [hi, hj] at apart
  · intro p hp q hq
    have range : ∀ x < d.dimension, (Array.range d.dimension).getD x 0 = x := fun x hx => by
      simp [Array.getD, hx]
    have split := h.splits exact_.ge p hp q hq
    rwa [← range _ (getD_lt_of_perm h.shape.rows hp), ← range _ (getD_lt_of_perm h.shape.cols hq)] at split
  · intro p hp q hq
    unfold Dense.Elimination.restPart
    split
    · rename_i low
      exact h.cleared exact_ p q low.1 hp (by simpa using low.2) hq
    · rfl

theorem Eliminated.rank_eq (h : Eliminated d columns e) (holds : b.Holds columns)
    (dimension : d.dimension = b.dimension) (exact_ : d.options.zeroTolerance = 0) :
    b.matrix.rank = e.rank := by
  have stages := rank_eq_length h.triangular (h.pivots_ne_zero exact_) (h.accounts exact_)
  rw [length_stages, dimension] at stages
  rw [holds.matrix_eq]
  exact stages

end DenseFactorization

namespace Engine

variable {f g h : Engine ℚ} {announced lowerHint upperHint : Nat}

/-- The rank that a factorization finds is the rank of the basis, and it succeeds if the basis is
nonsingular, unless it runs out of space. -/
theorem factor_detects_rank (accepted : b.Accepted) (entries : b.NoZeros)
    (exact_ : f.options.zeroTolerance = 0)
    (spares : f.isDense = false → f.options.SparesWithin b.dimension)
    (allocated : allocate announced lowerHint upperHint f = .ok () g)
    (loaded : load b g = .ok () h) (context : Context ℚ) :
    Ends (fun _ e => e.rank = b.matrix.rank ∧ b.matrix.det ≠ 0)
      (fun status e => status = .outOfMemory ∧ f.isDense = false ∨
        status = .singular ∧ e.rank = b.matrix.rank ∧ b.matrix.det = 0)
      (factor context h) := by
  obtain ⟨columns, holds, nonzero⟩ := accepted.exists_columns entries
  have full := @det_ne_zero_iff_rank b.dimension b.matrix
  obtain ⟨d, d', rfl, rfl, sized⟩ | ⟨s, s', rfl, rfl, sized⟩ := dispatch_eq_ok allocated
  · obtain ⟨_, d'', ⟨⟩, rfl, written⟩ | ⟨_, _, ⟨⟩, -⟩ := dispatch_eq_ok loaded
    obtain ⟨options, -⟩ := (DenseFactorization.allocate_ends _ _).result sized
    obtain ⟨options', dimension, ready⟩ := (DenseFactorization.load_ends holds d').result written
    refine EndsOr.ends (dispatch_dense_ends
      (((DenseFactorization.factor_ends ready context).mono ?_ ?_).or))
    · rintro _ t ⟨same, size, -, e, eliminated, rank⟩
      have found := eliminated.rank_eq holds (size.trans dimension)
        ((congrArg Options.zeroTolerance (same.trans (options'.trans options))).trans exact_)
      refine ⟨?_, full.mpr (found.trans (rank.trans dimension))⟩
      rw [found]
      simp [Engine.rank, DenseFactorization.rank, eliminated.order]
    · rintro _ t ⟨rfl, same, size, -, e, eliminated, rank⟩
      have found := eliminated.rank_eq holds (size.trans dimension)
        ((congrArg Options.zeroTolerance (same.trans (options'.trans options))).trans exact_)
      refine .inr ⟨rfl, ?_, by_contra fun regular => ?_⟩
      · rw [found]
        simp [Engine.rank, DenseFactorization.rank, eliminated.order]
      · have := full.mp regular
        omega
  · obtain ⟨_, _, ⟨⟩, -⟩ | ⟨_, s'', ⟨⟩, rfl, filled⟩ := dispatch_eq_ok loaded
    obtain ⟨prepared, options⟩ := (SparseFactorization.allocate_ends _ _ _ _).result sized
    have ends := SparseFactorization.factor_loaded prepared holds (options ▸ spares rfl) filled
      context
    have found : ∀ (t : SparseFactorization ℚ) all, t.options = s'.options →
        t.dimension = b.dimension →
        SparseFactorization.Pivoted t.options.zeroTolerance t.dimension columns all →
        b.matrix.rank = all.length := by
      intro t all same size pivoted
      have tolerance : t.options.zeroTolerance = 0 :=
        (congrArg Options.zeroTolerance (same.trans options)).trans exact_
      rw [tolerance, size] at pivoted
      exact pivoted.rank_eq holds nonzero
    refine EndsOr.ends (dispatch_sparse_ends ((ends.mono ?_ ?_).or))
    · rintro _ t ⟨-, same, size, all, factorized⟩
      have rank := found t all same size factorized.pivoted
      have length : all.length = t.dimension :=
        Nat.le_antisymm factorized.pivoted.triangular.length_le factorized.full
      refine ⟨?_, full.mpr (rank.trans (length.trans size))⟩
      rw [rank]
      simp [Engine.rank, SparseFactorization.rank, factorized.factors, Factors.numbered,
        Factors.rank, Factors.ofStages]
    · rintro e t ⟨-, same, size, -, rfl | ⟨rfl, all, singular⟩⟩
      · exact .inl ⟨rfl, rfl⟩
      · have rank := found t all same size singular.pivoted
        refine .inr ⟨rfl, ?_, by_contra fun regular => ?_⟩
        · rw [rank]
          simp [Engine.rank, SparseFactorization.rank, singular.factors]
        · have short := singular.short
          have := full.mp regular
          omega

/-- A matrix of rank one. -/
def repeated : BasisMatrix ℚ := ⟨2, .ofLines [[(0, 1), (1, 2)], [(0, 1), (1, 2)]]⟩

theorem rank_of_repeated : ∃ g h, allocate 2 0 0 (sparse (.new SparseFactorization.exactly)) =
      .ok () g ∧ load repeated g = .ok () h ∧
    Ends (fun _ e => e.rank = repeated.matrix.rank ∧ repeated.matrix.det ≠ 0)
      (fun status e => status = .outOfMemory ∧ false = false ∨
        status = .singular ∧ e.rank = repeated.matrix.rank ∧ repeated.matrix.det = 0)
      (factor .standard h) := by
  obtain ⟨_, h, run, -⟩ := @exists_ok_of_check _ _ (do
      allocate 2 0 0
      load repeated : Action (Engine ℚ) Unit) (sparse (.new SparseFactorization.exactly))
    (fun _ _ => true) (by decide +kernel)
  obtain ⟨_, g, allocated, loaded⟩ := ok_of_bind run
  exact ⟨g, h, allocated, loaded, factor_detects_rank
    (BasisMatrix.accepted_of_isOk (by decide +kernel)) (by decide +kernel) rfl
    (fun _ => by decide +kernel) allocated loaded .standard⟩

/-- A nonsingular matrix whose lines have to be moved. -/
def displaced : BasisMatrix ℚ :=
  ⟨5, .ofLines [[(1, 2), (4, -1), (0, -1), (2, -1)], [(0, -1), (1, 4), (2, -1)],
    [(1, 1), (3, -1), (2, 2)], [(0, -2), (3, 1), (4, -2)], [(1, -2), (0, -1), (4, 2)]]⟩

theorem det_displaced : displaced.matrix.det ≠ 0 := by
  let inverse : Matrix (Fin 5) (Fin 5) ℚ := (1 / 37 : ℚ) • !![-14, -10, -26, -62, -17;
    2, 12, 9, 30, 13; -6, 1, 10, -16, -2; -6, 1, 10, 21, -2; -13, -4, -3, -10, 8]
  exact Matrix.det_ne_zero_of_right_inverse (B := inverse) (by decide +kernel)

/-- Without the bound on the spare entries, a nonsingular basis may be found singular. -/
theorem rank_fails_of_overlap : ∃ f g h e, f.options.zeroTolerance = 0 ∧ displaced.Accepted ∧
    displaced.NoZeros ∧ allocate 5 300 16 f = .ok () g ∧ load displaced g = .ok () h ∧
    factor .standard h = .error (.status .singular) e ∧ e.rank ≠ displaced.matrix.rank ∧
    displaced.matrix.det ≠ 0 := by
  obtain ⟨_, h, run, check⟩ := @exists_ok_of_check _ _ (do
      allocate 5 300 16
      load displaced : Action (Engine ℚ) Unit) (sparse (.new SparseFactorization.boundless))
    (fun _ h => stoppedBy (.status .singular) (fun e => e.rank == 4) (factor .standard h))
    (by decide +kernel)
  obtain ⟨_, g, allocated, loaded⟩ := ok_of_bind run
  obtain ⟨e, factored, rank⟩ := stoppedBy_iff.mp check
  have full := det_ne_zero_iff_rank.mp det_displaced
  refine ⟨_, g, h, e, rfl, BasisMatrix.accepted_of_isOk (by decide +kernel), by decide +kernel,
    allocated, loaded, factored, ?_, det_displaced⟩
  rw [full, beq_iff_eq.mp rank]
  decide

end Engine

end SimplexBasis
