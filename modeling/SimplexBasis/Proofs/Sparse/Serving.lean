import SimplexBasis.Proofs.Sparse.Solutions

/-!
# Solves one after another

A completed factorization with its replacements answers every solve, and what it answers depends on
the factors, the etas and the right-hand side: whatever was solved before leaves the workspace as it
was, and the transposed factors lead to the same answers as the factors.
-/

set_option linter.unusedSectionVars false

namespace SimplexBasis

variable {n : Nat} {u u' v v' : SparseVector ℚ}

namespace Factors

variable {f : Factors ℚ} {R : Array ℚ → Array ℚ → Prop}

/-- The values of two vectors at the rows of the stages stand in a relation. -/
def Relates (f : Factors ℚ) (n : Nat) (R : Array ℚ → Array ℚ → Prop) (v u : SparseVector ℚ) : Prop :=
  ∃ bs xs, R bs xs ∧ f.byStage n u = vec n xs ∧ f.byStage n v = vec n bs

theorem elements_eq_of_byStage (usable : f.Usable n) (size : u.dimension = n)
    (size' : u'.dimension = n) (same : f.byStage n u = f.byStage n u') : u.elements = u'.elements := by
  refine Array.ext (size.trans size'.symm) fun i hi hi' => ?_
  obtain ⟨k, hk, row⟩ := usable.exists_stage (hi.trans_eq size)
  have value := congrFun same ⟨k, hk⟩
  simp only [byStage, row] at value
  simpa [Array.getD, hi, hi'] using value

theorem Relates.elements_eq (h : f.Relates n R v u) (h' : f.Relates n R v' u') (usable : f.Usable n)
    (unique : ∀ {bs xs bs' xs'}, R bs xs → R bs' xs' → vec n bs = vec n bs' → vec n xs = vec n xs')
    (size : u.dimension = n) (size' : u'.dimension = n) (same : v.elements = v'.elements) :
    u.elements = u'.elements := by
  obtain ⟨bs, xs, system, left, right⟩ := h
  obtain ⟨bs', xs', system', left', right'⟩ := h'
  have equal : f.byStage n v = f.byStage n v' := by
    unfold byStage
    rw [same]
  refine elements_eq_of_byStage usable size size' (left.trans (Eq.trans ?_ left'.symm))
  exact unique system system' (right.symm.trans (equal.trans right'))

end Factors

namespace SparseFactorization

variable {s t : SparseFactorization ℚ} {all : List (Stage ℚ)}

/-! ### Solving with the factors -/

theorem Standing.usable_numbered (h : Standing s all) :
    (Factors.numbered s.dimension all).Usable s.dimension := by
  have triangular : Triangular all.length all := h.length.symm ▸ h.triangular
  rw [← h.length]
  exact @Factors.usable_numbered all none triangular (by simp)

section

variable (h : Standing s all) (ready : s.workspace.Ready s.dimension)
  (size : v.elements.size = s.dimension) (inside : ∀ i ∈ v.indices, i < s.dimension)
  (covers : ∀ i, v.elements.getD i 0 ≠ 0 → i ∈ v.indices) (mode : v.packed = false) (count : Nat)
include h ready size inside covers mode

theorem Standing.ftranFactors : ∃ u t,
    solveFactors (s.transposesFor count) v Factors.ftranSparse Factors.ftranDense s = .ok u t ∧
      t.holding = s.holding ∧ u.Consistent ∧ u.packed = false ∧ u.dimension = s.dimension ∧
      (Factors.numbered s.dimension all).Relates s.dimension
        ((Factors.numbered s.dimension all).LowerUpper s.dimension) v u := by
  obtain ⟨u, t, run, same, solves⟩ := (h.solveFactors_run ready size inside count).1
  obtain ⟨consistent, unpacked, dimension, bs, xs, system, left, right⟩ :=
    solves.solution_eq h.usable covers mode
  rw [h.factors] at system left right
  exact ⟨u, t, run, same, consistent, unpacked, dimension, bs, xs, system, left, right⟩

theorem Standing.btranFactors : ∃ u t,
    solveFactors (s.transposesFor count) v Factors.btranSparse Factors.btranDense s = .ok u t ∧
      t.holding = s.holding ∧ u.Consistent ∧ u.packed = false ∧ u.dimension = s.dimension ∧
      (Factors.numbered s.dimension all).Relates s.dimension
        ((Factors.numbered s.dimension all).UpperLower s.dimension) v u := by
  obtain ⟨u, t, run, same, solves⟩ := (h.solveFactors_run ready size inside count).2
  obtain ⟨consistent, unpacked, dimension, bs, xs, system, left, right⟩ :=
    solves.solution_eq h.usable covers mode
  rw [h.factors] at system left right
  exact ⟨u, t, run, same, consistent, unpacked, dimension, bs, xs, system, left, right⟩

end

/-! ### The state between solves -/

/-- What the answers depend on, the factors apart. -/
structure Alike (s t : SparseFactorization ℚ) : Prop where
  dimension : t.dimension = s.dimension
  options : t.options = s.options
  etas : t.etas = s.etas

theorem Alike.refl (s : SparseFactorization ℚ) : Alike s s := ⟨rfl, rfl, rfl⟩

theorem Alike.trans {r : SparseFactorization ℚ} (h : Alike r s) (h' : Alike s t) : Alike r t :=
  ⟨h'.dimension.trans h.dimension, h'.options.trans h.options, h'.etas.trans h.etas⟩

theorem Alike.of_lasting (same : t.lasting = s.lasting) : Alike s t :=
  ⟨dimension_of_lasting same, options_of_lasting same, etas_of_lasting same⟩

namespace Serving

/-- Variables are assigned from a list of all columns to a list of all positions. -/
theorem assign_ok {sequence heading : Array Nat} (h : Serving s all)
    (columns : s.dimension ≤ sequence.size) (positions : s.dimension ≤ heading.size) :
    ∃ vs t, SparseFactorization.assign sequence heading s = .ok vs t := by
  obtain ⟨stages, distinct, records⟩ := h.standing.recorded
  have rows : s.factors.pivotRows.toList = stages.map Stage.row := by rw [records.rows]
  have cols : s.factors.pivotCols.toList = stages.map Stage.col := by rw [records.cols]
  have same : s.factors.pivotCols.size = s.factors.rank := by
    rw [Factors.rank, records.rows, records.cols]
    simp
  obtain ⟨vs, run, -⟩ := writes_ok rfl same (rows ▸ distinct.rows)
    (fun i member => (distinct.insideRows i (rows ▸ member)).trans_le positions)
    (fun j member => (distinct.insideCols j (cols ▸ member)).trans_le columns)
  rcases h.standing.buildTransposes_run with built | built
  · exact ⟨vs, _, assign_run run built⟩
  · exact ⟨vs, _, assign_run run built⟩

/-! ### Answers -/

/-- All states with the same factors and etas answer a solve with the same values. -/
theorem ftran_run (h : Serving s all) (consistent : v.Consistent)
    (dimension : v.dimension = s.dimension) : ∃ z : Fin s.dimension → ℚ,
      ∀ t, Serving t all → Alike s t → ∃ x t', SparseFactorization.ftran v t = .ok (x, x.count) t' ∧
        x.Answers v (kept s.options.zeroTolerance) z := by
  have size := (SparseVector.Consistent.dimension_unpack v).trans dimension
  have unpacked := SparseVector.Consistent.packed_unpack v
  have inside : ∀ i ∈ v.unpack.indices, i < s.dimension := fun i member =>
    size ▸ consistent.unpack.inside i member
  have covers := fun i => consistent.unpack.covers (i := i) unpacked
  obtain ⟨u, -, -, -, -, -, wide, relates⟩ :=
    h.standing.ftranFactors h.workspace size inside covers unpacked 0
  obtain ⟨zs, length, maps⟩ := h.etas.applies u.elements wide
  refine ⟨vec s.dimension zs, fun t serving alike => ?_⟩
  obtain ⟨w, t', run, same, found, mode, wide', relates'⟩ :=
    serving.standing.ftranFactors serving.workspace (alike.dimension ▸ size)
      (alike.dimension ▸ inside) covers unpacked v.unpack.count
  rw [alike.dimension] at wide' relates'
  have equal := relates'.elements_eq relates (h.standing.usable_numbered)
    (Factors.LowerUpper.unique (h.standing.usable_numbered)) wide' wide rfl
  obtain ⟨x', flops, applied, filled⟩ := maps w 0 ⟨found, mode, equal⟩
  rw [← alike.etas] at applied
  obtain ⟨x, ran, cleans⟩ := ftran_of_parts serving.phase serving.bounded
    (dimension.trans alike.dimension.symm) run same applied filled.consistent filled.unpacked
  refine ⟨x, _, ran, ?_⟩
  have answers := cleans.answers ⟨filled.consistent, filled.unpacked,
    (congrArg Array.size filled.elements).trans length⟩
  rw [filled.elements, alike.options] at answers
  exact answers

theorem btran_run (h : Serving s all) (consistent : v.Consistent)
    (dimension : v.dimension = s.dimension) : ∃ z : Fin s.dimension → ℚ,
      ∀ t, Serving t all → Alike s t → ∃ x t', SparseFactorization.btran v t = .ok (x, x.count) t' ∧
        x.Answers v (kept s.options.zeroTolerance) z := by
  have size := (SparseVector.Consistent.dimension_unpack v).trans dimension
  have unpacked := SparseVector.Consistent.packed_unpack v
  obtain ⟨zs, length, maps⟩ := h.etas.appliesTranspose v.unpack.elements size
  obtain ⟨u, flops, applied, filled⟩ := maps v.unpack 0 ⟨consistent.unpack, unpacked, rfl⟩
  have wide : u.elements.size = s.dimension := filled.elements ▸ length
  have inside : ∀ i ∈ (nonzeros u).indices, i < s.dimension := fun i member =>
    wide ▸ filled.consistent.inside i (mem_nonzeros.mp member).1
  have covers : ∀ i, (nonzeros u).elements.getD i 0 ≠ 0 → i ∈ (nonzeros u).indices := fun i nonzero =>
    mem_nonzeros.mpr
      ⟨filled.consistent.covers filled.unpacked nonzero, beq_eq_false_iff_ne.mpr nonzero⟩
  obtain ⟨w, -, -, -, -, -, wide₁, relates⟩ :=
    h.standing.btranFactors h.workspace (v := nonzeros u) wide inside covers filled.unpacked 0
  refine ⟨vec s.dimension w.elements, fun t serving alike => ?_⟩
  have counted := serving.of_lasting (t := t.counted flops) rfl serving.workspace
  obtain ⟨w', t', run, same, found, mode, wide₂, relates'⟩ :=
    counted.standing.btranFactors counted.workspace (v := nonzeros u) (alike.dimension ▸ wide)
      (alike.dimension ▸ inside) covers filled.unpacked (nonzeros u).count
  have dimension' : (t.counted flops).dimension = s.dimension := alike.dimension
  rw [dimension'] at wide₂ relates'
  have equal := relates'.elements_eq relates (h.standing.usable_numbered)
    (Factors.UpperLower.unique (h.standing.usable_numbered)) wide₂ wide₁ rfl
  rw [← alike.etas] at applied
  obtain ⟨x, ran, cleans⟩ := btran_of_parts serving.phase serving.bounded
    (dimension.trans alike.dimension.symm) applied run same found mode
  refine ⟨x, t', ran, ?_⟩
  have answers := cleans.answers ⟨found, mode, wide₂⟩
  rw [equal, alike.options] at answers
  exact answers

end Serving

end SparseFactorization

end SimplexBasis
