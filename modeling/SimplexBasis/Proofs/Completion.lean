import SimplexBasis.Proofs.Usage
import SimplexBasis.Proofs.Sparse.Product

/-!
# Solves behind replacements

Whether the etas of an engine stay within the basis depends on the replacements it was asked for: on
the row of a dense one, and on the rows that the column of a sparse one lists. While they do, every
solve completes, and its answer is stored like the right-hand side, without small entries.
-/

set_option linter.unusedSectionVars false

namespace SimplexBasis.Engine

variable {α : Type} [Scalar α] {e f g : Engine α} {stored : List (SparseVector α × Nat)}
  {context : Context α} {v : SparseVector α}

/-! ### Etas within the basis -/

/-- The etas are at rows of the basis, and their entries are. -/
def EtasWithin {α : Type} : Engine α → Prop
  | dense d => ∀ r ∈ d.etaRows, r < d.dimension
  | sparse s => (∀ r ∈ s.etas.rows, r < s.dimension) ∧ ∀ i ∈ s.etas.lines.index, i < s.dimension

/-- A replacement that leaves the etas within the basis, once it is stored. A dense engine checks the
rows of the column itself, a sparse one the row of the replacement. -/
def Admits (e : Engine α) (column : SparseVector α) (row : Nat) : Prop :=
  match e with
  | dense d => row < d.dimension
  | sparse s => ∀ i ∈ keys (SparseFactorization.etaEntries column row), i < s.dimension

theorem Records.etasWithin_iff (h : e.Records stored) :
    e.EtasWithin ↔ ∀ c ∈ stored, e.Admits c.1 c.2 := by
  cases e with
  | dense d =>
    obtain ⟨rows, -⟩ := h
    simp only [EtasWithin, Admits, ← Array.mem_toList_iff, rows, List.forall_mem_map]
  | sparse s =>
    obtain ⟨rows, -, below, lines, written, listed⟩ := h
    have inside : ∀ r ∈ s.etas.rows, r < s.dimension := by
      simpa only [← Array.mem_toList_iff, rows, List.forall_mem_map] using below
    have index : s.etas.lines.index.toList =
        (stored.map fun c => keys (SparseFactorization.etaEntries c.1 c.2)).flatten := by
      rw [written, Compressed.ofLines, Compressed.index_foldl_pushLine, ← listed]
      simp [Compressed.empty, List.map_flatten]
    simp only [EtasWithin, Admits, ← Array.mem_toList_iff, index]
    simp only [Array.mem_toList_iff, List.mem_flatten, List.mem_map]
    grind

/-! ### States that can be solved with -/

variable [LawfulZero α]

theorem admits_of_consistent {column : SparseVector α} {row : Nat} (consistent : column.Consistent)
    (dimension : column.dimension = e.dimension) (inside : row < e.dimension) : e.Admits column row := by
  cases e with
  | dense d => exact inside
  | sparse s => exact SparseFactorization.keys_etaEntries_lt consistent dimension row

theorem Served.serving_dense {d : DenseFactorization α} (h : Served stored (dense d))
    (within : (dense d).EtasWithin) : d.Serving where
  loaded := h.factored.1
  valid := h.factored.2.1
  order := h.factored.2.2
  inverses := h.records.2
  rows := within

theorem Served.serving_sparse [LawfulCounts α] {s : SparseFactorization α}
    (h : Served stored (sparse s)) (within : (sparse s).EtasWithin) :
    ∃ all, SparseFactorization.Serving s all := by
  obtain ⟨phase, -, bounded⟩ := h.factored
  have sound : SparseFactorization.Sound s := h.visited.sound
  obtain ⟨rows, inverses, -, lines, written, listed⟩ := h.records
  obtain ⟨all, standing⟩ := sound.standing phase
  refine ⟨all, phase, bounded, standing, sound.prepared.workspace, within.1, inverses, lines,
    written, ?_, fun line member i inside => within.2 i ?_⟩
  · have length := (congrArg List.length listed).trans (List.length_map ..)
    have size := (congrArg List.length rows).trans (List.length_map ..)
    simp only [List.length_map, Array.length_toList] at length size
    exact length.trans size.symm
  · rw [written, Compressed.ofLines, Compressed.index_foldl_pushLine]
    simp only [Compressed.empty, List.map_flatten, Array.empty_append, List.mem_toArray]
    exact List.mem_flatten.mpr ⟨_, List.mem_map_of_mem member, inside⟩

/-! ### Answers -/

/-- The least magnitude of what a solve answers. -/
def threshold : Engine α → α
  | dense d => d.options.zeroTolerance
  | sparse s => Scalar.max s.options.zeroTolerance SparseVector.tiny

/-- A vector that is stored like the right-hand side, without small entries. -/
structure Shaped (e : Engine α) (v x : SparseVector α) : Prop where
  consistent : x.Consistent
  mode : x.packed = v.packed
  dimension : x.dimension = v.dimension
  large : ∀ entry ∈ x.entries, e.threshold ≤ Scalar.abs entry.2

theorem shaped_of_scans {d : DenseFactorization α} {x : SparseVector α} {xs : Array α}
    (h : d.Scans v x xs) : (dense d).Shaped v x where
  consistent := h.consistent
  mode := h.mode
  dimension := h.dimension
  large _ member := SparseVector.large_of_scanned (h.entries ▸ member)

theorem shaped_of_cleans {s : SparseFactorization α} {x w : SparseVector α} (h : s.Cleans v w x)
    (spread : w.Spread s.dimension) (dimension : v.dimension = s.dimension) :
    (sparse s).Shaped v x where
  consistent := h.consistent
  mode := h.mode
  dimension := h.dimension.trans (spread.dimension.trans dimension.symm)
  large _ member := h.large spread.consistent member

theorem Served.solves [LawfulCounts α] (h : Served stored e) (within : e.EtasWithin)
    (consistent : v.Consistent) (dimension : v.dimension = e.dimension) :
    (∃ x t, ftran v e = .ok (x, x.count) t ∧ e.Shaped v x) ∧
      ∃ x t, btran v e = .ok (x, x.count) t ∧ e.Shaped v x := by
  cases e with
  | dense d =>
    have serving := h.serving_dense within
    obtain ⟨x, t, xs, run, scans⟩ := serving.ftran_ok consistent dimension
    obtain ⟨y, u, ys, run', scans'⟩ := serving.btran_ok consistent dimension
    exact ⟨⟨x, _, dispatch_dense_run run, shaped_of_scans scans⟩,
      y, _, dispatch_dense_run run', shaped_of_scans scans'⟩
  | sparse s =>
    obtain ⟨all, serving⟩ := h.serving_sparse within
    obtain ⟨x, t, w, run, spread, cleans⟩ := serving.ftran_ok consistent dimension
    obtain ⟨y, u, w', run', spread', cleans'⟩ := serving.btran_ok consistent dimension
    exact ⟨⟨x, _, dispatch_sparse_run run, shaped_of_cleans cleans spread dimension⟩,
      y, _, dispatch_sparse_run run', shaped_of_cleans cleans' spread' dimension⟩

/-! ### Behind a factorization -/

/-- The etas are within the basis as long as every replacement that was stored is one that the engine
admits, and then every right-hand side of the dimension of the basis is solved with. -/
theorem completes_of_use [LawfulCounts α] (visited : Visited e)
    (factored : factor context e = .ok () f) (use : InUse f stored g) :
    (g.EtasWithin ↔ ∀ c ∈ stored, g.Admits c.1 c.2) ∧
      (g.EtasWithin → ∀ v : SparseVector α, v.Consistent → v.dimension = g.dimension →
        (∃ x t, ftran v g = .ok (x, x.count) t) ∧ ∃ x t, btran v g = .ok (x, x.count) t) := by
  have served := use.served visited factored
  refine ⟨served.records.etasWithin_iff, fun within v consistent dimension => ?_⟩
  obtain ⟨⟨x, t, run, -⟩, y, u, run', -⟩ := served.solves within consistent dimension
  exact ⟨⟨x, t, run⟩, y, u, run'⟩

theorem completes_behind_replacement : ∃ (e f g : Engine ℚ), Visited e ∧
    factor .standard e = .ok () f ∧ InUse f [(.ofDense #[1, 2], 0)] g ∧ g.isDense = false ∧
    g.EtasWithin ∧ (∃ x t, ftran (.ofDense #[1, 0]) g = .ok (x, x.count) t) ∧
    ∃ x t, btran (.ofDense #[1, 0]) g = .ok (x, x.count) t := by
  obtain ⟨e, f, g, visited, factored, use, check⟩ :=
    (Visited.sparse (.standard : Options ℚ)).exists_use [.allocate 2 0 0, .load pair]
      [.ftran (.ofDense #[1, 0]), .replaceColumn (.ofDense #[1, 2]) 0 1] .standard
      (p := fun g => !g.isDense && g.dimension == 2) (by decide +kernel)
  rw [Bool.and_eq_true, Bool.not_eq_true', beq_iff_eq] at check
  obtain ⟨kind, dimension⟩ := check
  obtain ⟨within, completes⟩ := completes_of_use visited factored use
  have admitted : g.EtasWithin := within.mpr fun c member => by
    rw [List.mem_singleton.mp member]
    exact admits_of_consistent (.ofDense _) dimension.symm (dimension ▸ Nat.zero_lt_two)
  obtain ⟨forward, backward⟩ := completes admitted (.ofDense #[1, 0]) (.ofDense _) dimension.symm
  exact ⟨e, f, g, visited, factored, use, kind, admitted, forward, backward⟩

/-- A dense engine stores a replacement at a row that the basis does not have, and the next solve
reads that row. -/
theorem breaks_behind_replacement : ∃ (e f g : Engine ℚ), Visited e ∧
    factor .standard e = .ok () f ∧ InUse f [(.ofDense #[1, 2], 2)] g ∧ g.dimension = 2 ∧
    ¬g.EtasWithin ∧ ∃ t, ftran (.ofDense #[1, 0]) g = .error (.breach .indexOutOfRange) t := by
  obtain ⟨e, f, g, visited, factored, use, check⟩ :=
    (Visited.dense (.standard : Options ℚ)).exists_use [.allocate 2 0 0, .load pair]
      [.replaceColumn (.ofDense #[1, 2]) 2 1] .standard
      (p := fun g => g.dimension == 2 &&
        stoppedBy (.breach .indexOutOfRange) (fun _ => true) (ftran (.ofDense #[1, 0]) g))
      (by decide +kernel)
  rw [Bool.and_eq_true, beq_iff_eq, stoppedBy_iff] at check
  obtain ⟨dimension, t, broken, -⟩ := check
  have served := use.served visited factored
  refine ⟨e, f, g, visited, factored, use, dimension, fun within => ?_, t, broken⟩
  have wide : (SparseVector.ofDense #[1, 0] : SparseVector ℚ).dimension = g.dimension := dimension.symm
  obtain ⟨x, u, run, -⟩ := (served.solves within (.ofDense #[1, 0]) wide).1
  exact nomatch broken.symm.trans run

/-- Behind replacements by consistent columns at rows of the basis, the answer of a solve is a
consistent vector in the mode of the right-hand side, in which no entry is below the tolerance. -/
theorem shaped_of_use [LawfulCounts α] (visited : Visited e)
    (factored : factor context e = .ok () f) (use : InUse f stored g)
    (columns : ∀ c ∈ stored, c.1.Consistent ∧ c.1.dimension = g.dimension ∧ c.2 < g.dimension)
    (consistent : v.Consistent) (dimension : v.dimension = g.dimension) :
    (∃ x t, ftran v g = .ok (x, x.count) t ∧ g.Shaped v x) ∧
      ∃ x t, btran v g = .ok (x, x.count) t ∧ g.Shaped v x := by
  have served := use.served visited factored
  refine served.solves (served.records.etasWithin_iff.mpr fun c member => ?_) consistent dimension
  obtain ⟨found, wide, inside⟩ := columns c member
  exact admits_of_consistent found wide inside

theorem shaped_behind_replacement : ∃ (e f g : Engine ℚ) (x y : SparseVector ℚ), Visited e ∧
    factor .standard e = .ok () f ∧ InUse f [(.ofDense #[1, 2], 0)] g ∧ g.isDense = true ∧
    (∃ t, ftran (.ofDense #[1, 0]) g = .ok (x, x.count) t) ∧ g.Shaped (.ofDense #[1, 0]) x ∧
    (∃ t, btran (.ofDense #[1, 0]) g = .ok (y, y.count) t) ∧ g.Shaped (.ofDense #[1, 0]) y := by
  obtain ⟨e, f, g, visited, factored, use, check⟩ :=
    (Visited.dense (.standard : Options ℚ)).exists_use [.allocate 2 0 0, .load pair]
      [.btran (.ofDense #[1, 0]), .replaceColumn (.ofDense #[1, 2]) 0 1] .standard
      (p := fun g => g.isDense && g.dimension == 2) (by decide +kernel)
  rw [Bool.and_eq_true, beq_iff_eq] at check
  obtain ⟨kind, dimension⟩ := check
  have column : (SparseVector.ofDense #[1, 2] : SparseVector ℚ).dimension = g.dimension :=
    dimension.symm
  have given : (SparseVector.ofDense #[1, 0] : SparseVector ℚ).dimension = g.dimension :=
    dimension.symm
  obtain ⟨⟨x, t, run, shaped⟩, y, u, run', shaped'⟩ := shaped_of_use visited factored use
    (fun c member => by
      rw [List.mem_singleton.mp member]
      exact ⟨.ofDense _, column, dimension ▸ Nat.zero_lt_two⟩) (.ofDense #[1, 0]) given
  exact ⟨e, f, g, x, y, visited, factored, use, kind, ⟨t, run⟩, shaped, ⟨u, run'⟩, shaped'⟩

/-- A basis of which two stages come to stand at one row when its lines overlap. -/
def doubled : BasisMatrix ℚ :=
  ⟨5, .ofLines [[(1, 2), (0, -1), (3, -2)], [(0, -2), (3, 4), (4, -1)], [(1, -1), (3, 4), (2, -1)],
    [(2, 2), (0, 2), (4, 1)], [(4, -2), (1, 4), (0, 2)]]⟩

/-- Without the bound on the spare entries, the answer of a solve may list a row twice. -/
theorem inconsistent_of_overlap : doubled.Accepted ∧
    ∃ (e f g : Engine ℚ) (x : SparseVector ℚ × Nat),
      (do allocate 5 300 17; load doubled) (sparse (.new SparseFactorization.boundless)) = .ok () e ∧
      factor .standard e = .ok () f ∧ ftran (.ofDense #[0, 0, 1, 0, 0]) f = .ok x g ∧
      x.1.isConsistent = false := by
  obtain ⟨x, g, run, check⟩ := @exists_ok_of_check _ _ (do
      allocate 5 300 17
      load doubled
      factor .standard
      ftran (.ofDense #[0, 0, 1, 0, 0]) : Action (Engine ℚ) (SparseVector ℚ × Nat))
    (sparse (.new SparseFactorization.boundless)) (fun x _ => !x.1.isConsistent) (by decide +kernel)
  obtain ⟨_, e₁, allocated, run⟩ := ok_of_bind run
  obtain ⟨_, e, loaded, run⟩ := ok_of_bind run
  obtain ⟨_, f, factored, solved⟩ := ok_of_bind run
  exact ⟨BasisMatrix.accepted_of_isOk (by decide +kernel), e, f, g, x,
    (bind_of_ok allocated).trans loaded, factored, solved, (Bool.not_eq_true' _).mp check⟩

end SimplexBasis.Engine
