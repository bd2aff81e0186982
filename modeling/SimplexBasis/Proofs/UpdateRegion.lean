import SimplexBasis.Proofs.Usage

/-!
# The update region

A replacement is refused for want of space when the engine holds as many etas as it may, which it
announces, or when a sparse engine has no room for the entries of one more eta, which it does not
announce. Where there is room for all the etas that it may hold, it is full when it says so.
-/

set_option linter.unusedSectionVars false

namespace SimplexBasis

open SparseFactorization (etaEntries)

variable {α : Type} [Scalar α]

/-- An eta of a basis of dimension `n` stores at most one entry less than that. -/
theorem SparseFactorization.length_etaEntries_lt [LawfulZero α] {column : SparseVector α}
    {n row : Nat} (consistent : column.Consistent) (dimension : column.dimension = n)
    (inside : row < n) : (etaEntries column row).length < n := by
  have distinct : (keys (etaEntries column row)).Nodup :=
    (List.filter_sublist.map Prod.fst).nodup consistent.nodup_keys
  have apart : row ∉ keys (etaEntries column row) := fun member => by
    obtain ⟨⟨i, x⟩, stored, rfl⟩ := List.mem_map.mp member
    simp [etaEntries] at stored
  have rows : (row :: keys (etaEntries column row)) ⊆ List.range n := by
    rintro i (_ | ⟨_, member⟩)
    · exact List.mem_range.mpr inside
    · exact List.mem_range.mpr (keys_etaEntries_lt consistent dimension row i member)
  have length := (List.subperm_of_subset (List.nodup_cons.mpr ⟨apart, distinct⟩) rows).length_le
  simpa [keys] using length

namespace Engine

variable {e f g : Engine α} {stored : List (SparseVector α × Nat)} {context : Context α}
  {column : SparseVector α} {row : Nat} {pivot : α}

def etaCount (stored : List (SparseVector α × Nat)) : Nat :=
  (stored.map fun c => (etaEntries c.1 c.2).length).sum

/-- The etas of the replacements have more entries than a sparse engine has room for. -/
def Crowded (stored : List (SparseVector α × Nat)) : Engine α → Prop
  | dense _ => False
  | sparse s => s.capacity.etas < etaCount stored

/-- There is room for all the entries that the allowed number of etas may have. -/
def Roomy {α : Type} : Engine α → Prop
  | dense _ => True
  | sparse s => s.options.maxPivotsBeforeRefactor * (s.dimension - 1) ≤ s.capacity.etas

instance {α : Type} : (e : Engine α) → Decidable e.Roomy
  | dense _ => inferInstanceAs (Decidable True)
  | sparse s => inferInstanceAs
    (Decidable (s.options.maxPivotsBeforeRefactor * (s.dimension - 1) ≤ s.capacity.etas))

theorem Records.count {s : SparseFactorization α} (h : (sparse s).Records stored) :
    s.etas.lines.count = etaCount stored := by
  obtain ⟨-, -, -, lines, written, listed⟩ := h
  have lengths := congrArg (List.map List.length) listed
  simp only [List.map_map] at lengths
  rw [written, Compressed.count, Compressed.ofLines, Compressed.index_foldl_pushLine]
  simp only [Compressed.empty, Array.empty_append, List.size_toArray, List.length_map,
    List.length_flatten, etaCount]
  simpa [keys, Function.comp_def] using congrArg List.sum lengths

theorem needsRefactor_iff : e.needsRefactor = true ↔ e.maxPivots ≤ e.pivots := decide_eq_true_iff

theorem Served.full_iff (h : Served stored e) (inside : row < e.dimension) :
    (∃ t, replaceColumn column row pivot e = .error (.status .updateRegionFull) t) ↔
      e.needsRefactor = true ∨ e.Crowded (stored ++ [(column, row)]) := by
  have factored := h.factored
  rw [needsRefactor_iff]
  cases e with
  | dense d =>
    rw [replaceColumn, dispatch_dense_error_iff,
      DenseFactorization.replaceColumn_full_iff factored.2.1 factored.ordered]
    simp [maxPivots, pivots, Crowded]
  | sparse s =>
    rw [replaceColumn, dispatch_sparse_error_iff,
      SparseFactorization.replaceColumn_full_iff factored.1 inside, h.records.count]
    simp [maxPivots, pivots, Crowded, etaCount]

/-- With room for all the etas that are allowed, none of them finds too little. -/
theorem Served.not_crowded [LawfulZero α] (h : Served stored e) (roomy : e.Roomy)
    (columns : ∀ c ∈ stored, c.1.Consistent ∧ c.1.dimension = e.dimension)
    (consistent : column.Consistent) (dimension : column.dimension = e.dimension)
    (inside : row < e.dimension) (room : ¬e.needsRefactor = true) :
    ¬e.Crowded (stored ++ [(column, row)]) := by
  cases e with
  | dense d => exact id
  | sparse s =>
    have pivots := h.records.pivots
    have below := h.records.2.2.1
    have each : ∀ k ∈ (stored ++ [(column, row)]).map fun c => (etaEntries c.1 c.2).length,
        k ≤ s.dimension - 1 := by
      intro k member
      obtain ⟨c, here, rfl⟩ := List.mem_map.mp member
      rcases List.mem_append.mp here with old | new
      · exact Nat.le_sub_one_of_lt (SparseFactorization.length_etaEntries_lt (columns c old).1
          (columns c old).2 (below c old))
      · rw [List.mem_singleton.mp new]
        exact Nat.le_sub_one_of_lt
          (SparseFactorization.length_etaEntries_lt consistent dimension inside)
    have total := List.sum_le_card_nsmul _ _ each
    have fewer : stored.length + 1 ≤ s.options.maxPivotsBeforeRefactor := by
      rw [needsRefactor_iff, pivots, Nat.not_le] at room
      exact room
    have most := Nat.mul_le_mul_right (s.dimension - 1) fewer
    have roomy : s.options.maxPivotsBeforeRefactor * (s.dimension - 1) ≤ s.capacity.etas := roomy
    simp only [List.length_map, List.length_append, List.length_singleton, smul_eq_mul] at total
    exact Nat.not_lt.mpr (total.trans (most.trans roomy))

/-- A replacement is refused for want of space exactly when the engine says that it is to be
factorized anew, or when the etas with the new one are too large for a sparse engine; the latter
happens only in an engine without room for all the etas that it may hold. -/
theorem full_of_use [LawfulCounts α] [LawfulZero α] (visited : Visited e)
    (factored : factor context e = .ok () f) (use : InUse f stored g) (inside : row < g.dimension)
    (column : SparseVector α) (pivot : α) :
    ((∃ t, replaceColumn column row pivot g = .error (.status .updateRegionFull) t) ↔
      g.needsRefactor = true ∨ g.Crowded (stored ++ [(column, row)])) ∧
    (g.Roomy → (∀ c ∈ stored, c.1.Consistent ∧ c.1.dimension = g.dimension) →
      column.Consistent → column.dimension = g.dimension →
      ((∃ t, replaceColumn column row pivot g = .error (.status .updateRegionFull) t) ↔
        g.needsRefactor = true)) := by
  have served := use.served visited factored
  refine ⟨served.full_iff inside, fun roomy columns consistent dimension => ?_⟩
  rw [served.full_iff inside]
  refine or_iff_left_of_imp fun crowded => by_contra fun room => ?_
  exact served.not_crowded roomy columns consistent dimension inside room crowded

/-- A single replacement is allowed. -/
def once : Options ℚ := { Options.standard with maxPivotsBeforeRefactor := 1 }

theorem full_behind_replacement : ∃ (e f g : Engine ℚ), Visited e ∧
    factor .standard e = .ok () f ∧ InUse f [(.ofDense #[1, 2], 0)] g ∧ g.isDense = false ∧
    g.Roomy ∧ g.needsRefactor = true ∧
    ∃ t, replaceColumn (.ofDense #[3, 1]) 1 1 g = .error (.status .updateRegionFull) t := by
  obtain ⟨e, f, g, visited, factored, use, check⟩ :=
    (Visited.sparse once).exists_use [.allocate 2 0 0, .load pair]
      [.replaceColumn (.ofDense #[1, 2]) 0 1] .standard
      (p := fun g => g.dimension == 2 && !g.isDense && decide g.Roomy && g.needsRefactor)
      (by decide +kernel)
  simp only [Bool.and_eq_true, beq_iff_eq, Bool.not_eq_true', decide_eq_true_eq] at check
  obtain ⟨⟨⟨dimension, kind⟩, roomy⟩, announced⟩ := check
  have wide : ∀ {x : SparseVector ℚ}, x.dimension = 2 → x.dimension = g.dimension :=
    fun same => same.trans dimension.symm
  have inside : 1 < g.dimension := dimension ▸ Nat.one_lt_two
  obtain ⟨-, full⟩ := full_of_use visited factored use inside (.ofDense #[3, 1]) 1
  have columns : ∀ c ∈ [(SparseVector.ofDense #[(1 : ℚ), 2], 0)],
      c.1.Consistent ∧ c.1.dimension = g.dimension := fun c member => by
    rw [List.mem_singleton.mp member]
    exact ⟨.ofDense _, wide rfl⟩
  exact ⟨e, f, g, visited, factored, use, kind, roomy, announced,
    (full roomy columns (.ofDense _) (wide rfl)).mpr announced⟩

/-- A basis whose lower factor is empty. -/
def diagonal : BasisMatrix ℚ := ⟨2, .ofLines [[(0, 2)], [(1, 3)]]⟩

/-- With an area for a single entry of the lower factor, the third of two hundred replacements is
refused for want of space, and the engine does not announce it. -/
theorem full_unannounced : ∃ (e f g : Engine ℚ), Visited e ∧ factor .standard e = .ok () f ∧
    InUse f [(.ofDense #[1, 2], 0), (.ofDense #[1, 2], 0)] g ∧ g.dimension = 2 ∧ g.maxPivots = 200 ∧
    g.needsRefactor = false ∧
    ∃ t, replaceColumn (.ofDense #[1, 2]) 0 1 g = .error (.status .updateRegionFull) t := by
  obtain ⟨e, f, g, visited, factored, use, check⟩ :=
    (Visited.sparse (.standard : Options ℚ)).exists_use [.allocate 2 1 0, .load diagonal]
      [.replaceColumn (.ofDense #[1, 2]) 0 1, .replaceColumn (.ofDense #[1, 2]) 0 1] .standard
      (p := fun g => g.dimension == 2 && g.maxPivots == 200 && !g.needsRefactor &&
        stoppedBy (.status .updateRegionFull) (fun _ => true)
          (replaceColumn (.ofDense #[1, 2]) 0 1 g)) (by decide +kernel)
  simp only [Bool.and_eq_true, beq_iff_eq, Bool.not_eq_true', stoppedBy_iff] at check
  obtain ⟨⟨⟨dimension, allowed⟩, quiet⟩, t, full, -⟩ := check
  exact ⟨e, f, g, visited, factored, use, dimension, allowed, quiet, t, full⟩

end Engine

end SimplexBasis
