import SimplexBasis.Proofs.Sparse.Completion
import SimplexBasis.Proofs.Sparse.Solving
import SimplexBasis.Proofs.Vectors.Values

/-!
# Solutions

With the factors of a completed factorization, a solve answers the solution of the system that the
factors stand for, whichever way it is computed and whatever was solved before.
-/

set_option linter.unusedSectionVars false

namespace SimplexBasis

variable {n k i : Nat}

namespace Compressed

variable {lines : List (List (Nat × ℚ))}

theorem transposed_entryIn (length : lines.length = n) (beyond : (ofLines lines).Beyond n) :
    ∀ k < n, ∀ i < n, (ofLines (transposed lines n)).entryIn i k = (ofLines lines).entryIn k i := by
  have read : ∀ i < n, (ofLines (transposed lines n)).line i = .ok (bucket (tagged lines) i) := by
    intro i hi
    have here := line_ofLines (transposed lines n) i (by simpa [transposed] using hi)
    simpa [transposed] using here
  intro k hk i hi
  have here : lines[k]? = some lines[k] := List.getElem?_eq_getElem (length.symm ▸ hk)
  unfold entryIn
  rw [read i hi, line_ofLines lines k (length.symm ▸ hk)]
  exact valueAt_bucket (beyond.distinct length) here

end Compressed

namespace Factors

variable {all : List (Stage ℚ)} {transposes : Option (Transposes ℚ)}

theorem complete_numbered (triangular : Triangular all.length all)
    (pivots : ∀ st ∈ all, st.pivot ≠ 0) :
    ({ numbered all.length all with transposes := transposes } : Factors ℚ).Complete all.length where
  rows := triangular.rows_perm le_rfl
  cols := triangular.cols_perm le_rfl
  lower := beyond_lower (n := all.length) triangular
  upper := beyond_upper (n := all.length) triangular
  inverses := by simp [numbered, ofStages]
  nonzero := fun k hk => by
    have inverse : (numbered all.length all).inverses.getD k 0 = 1 / all[k].pivot := by
      simp [numbered, ofStages, Array.getD, hk]
    change (numbered all.length all).inverses.getD k 0 ≠ 0
    rw [inverse]
    exact one_div_ne_zero (pivots _ (List.getElem_mem hk))

theorem usable_numbered (triangular : Triangular all.length all)
    (built : ∀ t, transposes = some t → t = numberedTransposes all) :
    ({ numbered all.length all with transposes := transposes } : Factors ℚ).Usable all.length where
  toSited := sited_numbered triangular
  lower := beyond_lower (n := all.length) triangular
  upper := beyond_upper (n := all.length) triangular
  transposing t found := by
    rw [built t found]
    have lower : (numbered all.length all).lower.Beyond all.length := beyond_lower triangular
    have upper : (numbered all.length all).upper.Beyond all.length := beyond_upper triangular
    exact ⟨Compressed.transposed_climbs (by simp) lower, Compressed.transposed_climbs (by simp) upper,
      Compressed.transposed_entryIn (by simp) lower, Compressed.transposed_entryIn (by simp) upper⟩

def byStage (f : Factors ℚ) (n : Nat) (v : SparseVector ℚ) : Fin n → ℚ :=
  fun k => v.elements.getD (f.pivotRows.getD k 0) 0

end Factors

namespace Workspace

variable {f : Factors ℚ} {v u : SparseVector ℚ} {done stages order : List Nat}
  {elements bs xs values : Array ℚ}

theorem mem_support : k ∈ support xs order ↔ k ∈ order ∧ xs.getD k 0 ≠ 0 := by
  rw [support, List.mem_filter]
  simp

theorem Gathered.elements_eq_zero (h : Gathered f n v v.indices.toList elements bs stages)
    (covers : ∀ i, v.elements.getD i 0 ≠ 0 → i ∈ v.indices) (i : Nat) :
    elements.getD i 0 = 0 := by
  rw [h.cleared]
  split
  · rfl
  · rename_i out
    by_contra nonzero
    exact out (Array.mem_toList_iff.mpr (covers i nonzero))

theorem Gathered.values_eq (h : Gathered f n v v.indices.toList elements bs stages)
    (covers : ∀ i, v.elements.getD i 0 ≠ 0 → i ∈ v.indices) (hk : k < n) :
    bs.getD k 0 = v.elements.getD (f.pivotRows.getD k 0) 0 := by
  rw [h.moved k hk]
  split
  · rfl
  · rename_i out
    by_contra nonzero
    exact out (Array.mem_toList_iff.mpr (covers _ (Ne.symm nonzero)))

section Returned

variable (h : Returned f n ⟨elements, #[], false⟩ xs order u values)
  (inside : ∀ k ∈ order, k < n)
  (vacant : ∀ k < n, k ∉ order → xs.getD k 0 = 0)

include h vacant

/-- A vector that was clear holds the values, also those of the stages that were not searched. -/
theorem Returned.elements_eq (zero : ∀ i, elements.getD i 0 = 0) (hk : k < n) :
    u.elements.getD (f.pivotRows.getD k 0) 0 = xs.getD k 0 := by
  rw [h.stored k hk, zero]
  split
  · rfl
  · rename_i out
    by_contra nonzero
    exact out (mem_support.mpr ⟨not_imp_comm.mp (vacant k hk) (Ne.symm nonzero), Ne.symm nonzero⟩)

include inside

theorem Returned.mem_indices :
    i ∈ u.indices ↔ ∃ k < n, f.pivotRows.getD k 0 = i ∧ xs.getD k 0 ≠ 0 := by
  rw [← Array.mem_toList_iff, h.listed, List.mem_append, List.mem_map]
  constructor
  · rintro (old | ⟨k, here, rfl⟩)
    · exact absurd old List.not_mem_nil
    · obtain ⟨ordered, nonzero⟩ := mem_support.mp here
      exact ⟨k, inside k ordered, rfl, nonzero⟩
  · rintro ⟨k, hk, rfl, nonzero⟩
    exact .inr ⟨k, mem_support.mpr ⟨not_imp_comm.mp (vacant k hk) nonzero, nonzero⟩, rfl⟩

theorem Returned.consistent (usable : f.Usable n) (zero : ∀ i, elements.getD i 0 = 0)
    (distinct : order.Nodup) : u.Consistent := by
  have unpacked : u.packed = false := h.mode
  have dimension : u.dimension = n := h.size
  have places : ∀ i, i ∈ u.places ↔ i ∈ u.indices := by
    intro i
    rw [SparseVector.places_unpacked unpacked, Array.mem_toList_iff]
  refine ⟨?_, fun i here => ?_, fun i here => ?_, fun i hi out => ?_⟩
  · rw [h.listed]
    refine (distinct.filter _).map_on fun k hk l hl same => ?_
    exact usable.row_inj (inside k (List.mem_filter.mp hk).1) (inside l (List.mem_filter.mp hl).1)
      same
  · obtain ⟨k, hk, rfl, -⟩ := (h.mem_indices inside vacant).mp here
    exact dimension.symm ▸ usable.row_lt hk
  · obtain ⟨k, hk, rfl, nonzero⟩ := (h.mem_indices inside vacant).mp ((places i).mp here)
    rw [h.elements_eq vacant zero hk]
    exact beq_eq_false_iff_ne.mpr nonzero
  · obtain ⟨k, hk, rfl⟩ := usable.exists_stage (dimension ▸ hi)
    rw [h.elements_eq vacant zero hk, beq_iff_eq]
    by_contra nonzero
    exact out ((places _).mpr ((h.mem_indices inside vacant).mpr ⟨k, hk, rfl, nonzero⟩))

end Returned

end Workspace

namespace Factors

/-- What a solve leaves is consistent and holds the solution at the rows of the stages. -/
theorem Solves.solution_eq {f : Factors ℚ} {R : Array ℚ → Array ℚ → Prop} {v u : SparseVector ℚ}
    {w : Workspace ℚ} (solves : f.Solves n R v u w) (usable : f.Usable n)
    (covers : ∀ i, v.elements.getD i 0 ≠ 0 → i ∈ v.indices) (mode : v.packed = false) :
    u.Consistent ∧ u.packed = false ∧ u.dimension = n ∧ ∃ bs xs, R bs xs ∧
      f.byStage n u = vec n xs ∧ f.byStage n v = vec n bs := by
  obtain ⟨elements, bs, stages, xs, order, values, gathered, system, distinct, inside, vacant,
    returned⟩ := solves.solution
  rw [mode] at returned
  have zero := gathered.elements_eq_zero covers
  refine ⟨returned.consistent inside vacant usable zero distinct, returned.mode, returned.size,
    bs, xs, system, ?_, ?_⟩
  · funext k
    exact returned.elements_eq vacant zero k.isLt
  · funext k
    exact (gathered.values_eq covers k.isLt).symm

end Factors

namespace SparseFactorization

variable {s t : SparseFactorization ℚ} {all : List (Stage ℚ)} {v u : SparseVector ℚ}

/-! ### The state behind a factorization -/

/-- The factors of stages are complete, and the workspace is ready for a solve. -/
structure Solvable (s : SparseFactorization ℚ) (all : List (Stage ℚ)) : Prop where
  phase : s.phase = .factorized
  pending : s.pending = none
  bounded : s.Bounded
  length : all.length = s.dimension
  triangular : Triangular s.dimension all
  pivots : ∀ st ∈ all, st.pivot ≠ 0
  factors : s.factors = { Factors.numbered s.dimension all with transposes := s.factors.transposes }
  built : ∀ t, s.factors.transposes = some t → t = Factors.numberedTransposes all
  workspace : s.workspace.Ready s.dimension

theorem Solvable.standing (h : Solvable s all) : Standing s all :=
  ⟨h.length, h.triangular, h.factors, h.built⟩

theorem Solvable.of_holding (h : Solvable s all) (same : t.holding = s.holding)
    (ready : t.workspace.Ready s.dimension) : Solvable t all := by
  simp only [holding, region, Prod.mk.injEq] at same
  obtain ⟨⟨options, capacity, etas, phase, pending⟩, factors, dimension⟩ := same
  constructor
  · exact phase.trans h.phase
  · exact pending.trans h.pending
  · exact h.bounded.of_region options capacity etas
  · exact h.length.trans dimension.symm
  · exact dimension ▸ h.triangular
  · exact h.pivots
  · rw [factors, dimension]
    exact h.factors
  · rw [factors]
    exact h.built
  · exact dimension ▸ ready

theorem Standing.usable (h : Standing s all) : s.factors.Usable s.dimension := by
  rw [h.factors, ← h.length]
  exact Factors.usable_numbered (h.length.symm ▸ h.triangular) h.built

theorem Solvable.complete (h : Solvable s all) : s.factors.Complete s.dimension := by
  rw [h.factors, ← h.length]
  exact Factors.complete_numbered (h.length.symm ▸ h.triangular) h.pivots

theorem Standing.solveFactors_run (h : Standing s all) (ready : s.workspace.Ready s.dimension)
    (size : v.elements.size = s.dimension) (inside : ∀ i ∈ v.indices, i < s.dimension) (count : Nat) :
    (∃ u t, solveFactors (s.transposesFor count) v Factors.ftranSparse Factors.ftranDense s =
        .ok u t ∧ t.holding = s.holding ∧
      s.factors.Solves s.dimension (s.factors.LowerUpper s.dimension) v u t.workspace) ∧
    ∃ u t, solveFactors (s.transposesFor count) v Factors.btranSparse Factors.btranDense s =
        .ok u t ∧ t.holding = s.holding ∧
      s.factors.Solves s.dimension (s.factors.UpperLower s.dimension) v u t.workspace := by
  have built : ∀ t, s.transposesFor count = some t → s.factors.transposes = some t :=
    fun _ => transposesFor_eq_some
  constructor
  · obtain ⟨solved, run, solves⟩ := Factors.ftran_solves h.usable ready size inside _ built
    obtain ⟨t, ran, same, workspace⟩ := solveFactors_of_solved run
    exact ⟨_, t, ran, same, workspace ▸ solves⟩
  · obtain ⟨solved, run, solves⟩ := Factors.btran_solves h.usable ready size inside _ built
    obtain ⟨t, ran, same, workspace⟩ := solveFactors_of_solved run
    exact ⟨_, t, ran, same, workspace ▸ solves⟩

theorem Solvable.ftran (h : Solvable s all) {x : SparseVector ℚ × Nat}
    (run : ftran v s = .ok x t) : Solvable t all :=
  h.of_holding (holding_of_lasting (lasting_of_ftran run)) (h.standing.ready_of_ftran h.workspace run)

theorem Solvable.btran (h : Solvable s all) {x : SparseVector ℚ × Nat}
    (run : btran v s = .ok x t) : Solvable t all :=
  h.of_holding (holding_of_lasting (lasting_of_btran run)) (h.standing.ready_of_btran h.workspace run)

theorem Solvable.assign (h : Solvable s all) {sequence heading vs : Array Nat}
    (run : assign sequence heading s = .ok vs t) : Solvable t all := by
  obtain rfl | rfl := h.standing.assign_result run
  · exact h
  · have standing := h.standing.transposed
    exact
      { phase := h.phase
        pending := h.pending
        bounded := h.bounded.of_region rfl rfl rfl
        length := h.length
        triangular := h.triangular
        pivots := h.pivots
        factors := standing.factors
        built := standing.built
        workspace := h.workspace }

/-- Calls behind a factorization that leave its factors and the column replacements as they are, and
any bound on the right-hand sides that are solved on their reach. -/
inductive Continued (s : SparseFactorization ℚ) : SparseFactorization ℚ → Prop
  | refl : Continued s s
  | tuned {t : SparseFactorization ℚ} (threshold : Nat) : Continued s t →
      Continued s { t with sparseThreshold := threshold }
  | assign {t u : SparseFactorization ℚ} {sequence heading vs : Array Nat} : Continued s t →
      SparseFactorization.assign sequence heading t = .ok vs u → Continued s u
  | ftran {t u : SparseFactorization ℚ} {v : SparseVector ℚ} {x : SparseVector ℚ × Nat} :
      Continued s t → SparseFactorization.ftran v t = .ok x u → Continued s u
  | btran {t u : SparseFactorization ℚ} {v : SparseVector ℚ} {x : SparseVector ℚ × Nat} :
      Continued s t → SparseFactorization.btran v t = .ok x u → Continued s u
  | refused {t u : SparseFactorization ℚ} {column : SparseVector ℚ} {row : Nat} {pivot : ℚ}
      {status : Status} : Continued s t →
      replaceColumn column row pivot t = .error (.status status) u → Continued s u
  | repeated {t u : SparseFactorization ℚ} {context : Context ℚ} {status : Status} :
      Continued s t → factor context t = .error (.status status) u → Continued s u

theorem Solvable.continued (h : Solvable s all) (calls : Continued s t) : Solvable t all := by
  induction calls with
  | refl => exact h
  | tuned _ _ ih => exact ih.of_holding rfl ih.workspace
  | assign _ run ih => exact ih.assign run
  | ftran _ run ih => exact ih.ftran run
  | btran _ run ih => exact ih.btran run
  | refused _ run ih =>
    obtain ⟨-, records, rfl⟩ := (replaceColumn_ends ih.phase _ _ _).failure run
    exact ih.of_holding rfl ih.workspace
  | repeated _ run ih =>
    rw [factor_of_unloaded ih.pending (by rw [ih.phase]; simp)] at run
    cases run
    exact ih.of_holding rfl ih.workspace

theorem Continued.region (calls : Continued s t) (h : Solvable s all) : t.region = s.region := by
  induction calls with
  | refl => rfl
  | tuned _ _ ih => exact ih
  | assign _ run ih =>
    exact (congrArg Prod.fst
      (Steady.ok (F := fun _ => True) (@assign_steady _ _ #[] _ _ _) run).2).trans ih
  | ftran before run ih =>
    have earlier := h.continued before
    exact ((earlier.bounded.ftran_ends earlier.phase _).result run).trans ih
  | btran before run ih =>
    have earlier := h.continued before
    exact ((earlier.bounded.btran_ends earlier.phase _).result run).trans ih
  | refused before run ih =>
    have earlier := h.continued before
    obtain ⟨-, records, rfl⟩ := (replaceColumn_ends earlier.phase _ _ _).failure run
    exact ih
  | repeated before run ih =>
    have earlier := h.continued before
    rw [factor_of_unloaded earlier.pending (by rw [earlier.phase]; simp)] at run
    cases run
    exact ih

/-! ### What is answered -/

theorem Cleans.answers {x : SparseVector ℚ} (h : s.Cleans v u x) (spread : u.Spread n) :
    x.Answers v (kept s.options.zeroTolerance) (vec n u.elements) := by
  refine ⟨h.consistent, h.mode, h.dimension.trans spread.dimension, fun i => ?_⟩
  rw [SparseVector.valueOf, h.entries]
  exact (spread.consistent.valueOf_clean _ i).trans
    (congrArg _ (spread.consistent.valueOf_unpacked spread.unpacked i))

end SparseFactorization

end SimplexBasis
