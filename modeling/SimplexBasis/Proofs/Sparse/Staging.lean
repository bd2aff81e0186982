import SimplexBasis.Proofs.Sparse.Calls
import SimplexBasis.Proofs.Sparse.Reached

/-!
# The stages of the stored factors

While pivots are found, the factors list rows and columns of which only later pivots decide the
stages. What is left when all are found is triangular in the stages: every line of either factor
lists different stages behind its own. Nothing of this depends on the arithmetic of the scalars.
-/

set_option linter.unusedSectionVars false

namespace SimplexBasis

variable {α : Type} [Scalar α] {n m : Nat}

namespace Compressed

/-- There are `n` lines one behind the other, and the indices of each are different numbers between
its own and `n`. -/
structure Staged (c : Compressed α) (n : Nat) : Prop where
  size_start : c.start.size = n + 1
  ascending : ∀ k < n, c.start.getD k 0 ≤ c.start.getD (k + 1) 0
  ending : c.start.getD n 0 = c.index.size
  distinct : ∀ k < n, (c.index.extract (c.start.getD k 0) (c.start.getD (k + 1) 0)).toList.Nodup
  later : ∀ k < n, ∀ i ∈ c.index.extract (c.start.getD k 0) (c.start.getD (k + 1) 0), k < i ∧ i < n

theorem keys_line {c : Compressed α} {k : Nat} {entries : List (Nat × α)}
    (read : c.line k = .ok entries) : c.start.getD k 0 ≤ c.start.getD (k + 1) 0 ∧
      keys entries = (c.index.extract (c.start.getD k 0) (c.start.getD (k + 1) 0)).toList := by
  unfold line extent at read
  obtain ⟨⟨first, last⟩, extent, read⟩ := except_bind_eq_ok.mp read
  obtain ⟨low, atFirst, extent⟩ := except_bind_eq_ok.mp extent
  obtain ⟨high, atLast, extent⟩ := except_bind_eq_ok.mp extent
  cases extent
  obtain ⟨indices, cut, read⟩ := except_bind_eq_ok.mp read
  obtain ⟨values, cut', read⟩ := except_bind_eq_ok.mp read
  cases read
  obtain ⟨ordered, inside, rfl⟩ := segment_eq_ok_iff.mp cut
  obtain ⟨-, inside', rfl⟩ := segment_eq_ok_iff.mp cut'
  rw [(getD_of_entry 0 atFirst).2, (getD_of_entry 0 atLast).2]
  refine ⟨ordered, List.map_fst_zip ?_⟩
  simp only [Array.length_toList, Array.size_extract]
  omega

theorem Beyond.staged {lines : List (List (Nat × α))} (h : (ofLines lines).Beyond n)
    (length : lines.length = n) : (ofLines lines).Staged n := by
  subst length
  have cut : ∀ k < lines.length, ∃ entries, (ofLines lines).line k = .ok entries ∧
      (keys entries).Nodup ∧ ∀ i ∈ keys entries, k < i ∧ i < lines.length := h
  refine ⟨size_start_ofLines lines, fun k hk => ?_, ?_, fun k hk => ?_, fun k hk i hi => ?_⟩
  · obtain ⟨entries, read, -⟩ := cut k hk
    exact (keys_line read).1
  · rw [Array.getD_eq_getD_getElem?, start_ofLines lines _ le_rfl, List.take_length,
      Option.getD_some]
    exact (count_ofLines lines).symm
  · obtain ⟨entries, read, distinct, -⟩ := cut k hk
    exact (keys_line read).2 ▸ distinct
  · obtain ⟨entries, read, -, later⟩ := cut k hk
    exact later i ((keys_line read).2 ▸ Array.mem_toList_iff.mpr hi)

end Compressed

/-- Both factors are strictly triangular in the stages, and the orders of the pivots are permutations
with the stages as their inverses. -/
structure Factors.Staged (f : Factors α) (n : Nat) : Prop where
  lower : f.lower.Staged n
  upper : f.upper.Staged n
  rows : f.pivotRows.toList.Perm (List.range n)
  cols : f.pivotCols.toList.Perm (List.range n)
  size_stageOfRow : f.stageOfRow.size = n
  size_stageOfCol : f.stageOfCol.size = n
  rowInverse : ∀ i k : Nat, f.stageOfRow[i]? = some (some k) ↔ f.pivotRows[k]? = some i
  colInverse : ∀ j k : Nat, f.stageOfCol[j]? = some (some k) ↔ f.pivotCols[k]? = some j

theorem Factors.staged_numbered {all : List (Stage α)} (h : Triangular m all)
    (full : m ≤ all.length) : (Factors.numbered m all).Staged m := by
  obtain rfl : all.length = m := Nat.le_antisymm h.length_le full
  exact
    { lower := (beyond_lower (n := all.length) h).staged (List.length_map ..)
      upper := (beyond_upper (n := all.length) h).staged (List.length_map ..)
      rows := h.rows_perm le_rfl
      cols := h.cols_perm le_rfl
      size_stageOfRow := by simp [numbered, ofStages]
      size_stageOfCol := by simp [numbered, ofStages]
      rowInverse := fun i k => SparseFactorization.stageOf_eq_some h.nodup_rows fun _ => h.row_lt
      colInverse := fun j k => SparseFactorization.stageOf_eq_some h.nodup_cols fun _ => h.col_lt }

namespace SparseFactorization

variable {r s t u : SparseFactorization α} {stages : List (Stage α)} {v : ActiveView α}
  {ρ : Rules α} {q : Point α} {b : BasisMatrix α} {context : Context α}
  {announced lowerHint upperHint : Nat}

theorem Closing.triangular {rest : Action (SparseFactorization α) Unit} (h : Closing ρ m q rest)
    (there : At ρ m q t) (triangular : Triangular m q.stages) :
    Ends (fun _ u => u.dimension = m ∧ ∃ all, u.factors = .ofStages m all ∧ Triangular m all)
      (fun _ _ => True) (rest t) := by
  obtain ⟨rfl, -⟩ | ⟨rfl, -⟩ := h
  · exact ⟨there.working.dimension, q.stages, there.working.factors, triangular⟩
  · exact (there.working.factorizeBlock_triangular triangular).mono (fun _ _ => id)
      fun _ _ _ => trivial

theorem factorizeLoaded_staged (h : Working s m stages v) (triangular : Triangular m stages) :
    Ends (fun _ t => t.factors.Staged m) (fun _ _ => True) (factorizeLoaded s) := by
  obtain ⟨q, rest, leads, closing⟩ := @factorizeLoaded_leads _ _ m s.rules ⟨stages, v, s.tallies⟩
  obtain ⟨more, eq, chain⟩ := leads.onward
  refine leads.ends_of h.at (fun t there _ => ?_) fun _ _ _ _ _ => trivial
  have pivoted : Triangular m q.stages := eq ▸ chain.triangular triangular
  refine (closing.triangular there pivoted).bind ?_
  rintro _ u ⟨dimension, all, factors, triangular⟩
  rw [finishFactors_run factors dimension triangular]
  split
  · exact Factors.staged_numbered triangular ‹_›
  · trivial

theorem factor_staged {columns : List (List (Nat × α))}
    (ready : Loaded s columns ∨ s.pending = some .outOfMemory) (context : Context α) :
    Ends (fun _ t => t.factors.Staged s.dimension) (fun _ _ => True) (factor context s) := by
  rcases ready with loaded | pending
  · obtain ⟨v, stages, w, -, chain, working⟩ := loaded.working
    rw [factor_of_loaded loaded.pending loaded.phase]
    exact Ends.conclude
      (factorizeLoaded_staged (working.begun context) (chain.triangular .nil))
      (fun _ _ staged => staged) fun _ _ _ _ => trivial
  · rw [factor_of_pending pending]
    trivial

/-- Whatever state a basis is announced and loaded in, the factors of a factorization that succeeds
are strictly triangular in the stages. -/
theorem staged_of_factor (accepted : b.Accepted) (spares : r.options.SparesWithin b.dimension)
    (allocated : allocate announced lowerHint upperHint r = .ok () s)
    (loaded : load b s = .ok () t) (factored : factor context t = .ok () u) :
    u.factors.Staged b.dimension := by
  obtain ⟨columns, holds, -⟩ := accepted.holds
  obtain ⟨prepared, options⟩ := (allocate_ends _ _ _ _).result allocated
  obtain ⟨-, -, dimension, -, -, ready⟩ :=
    (load_ends prepared holds (spacious_of_spares (options ▸ spares))).result loaded
  exact dimension ▸ (factor_staged ready context).result factored

/-- A basis that takes searched pivots, in areas that have to be compressed. -/
theorem staged_of_crowded : ∃ s t u, allocate 5 300 20 (new exactly) = .ok () s ∧
    load crowded s = .ok () t ∧ factor ⟨defaultTarget, id⟩ t = .ok () u ∧ u.compressions = 1 ∧
    u.factors.Staged crowded.dimension := by
  obtain ⟨_, u, run, check⟩ := @exists_ok_of_check _ _ (do
      allocate 5 300 20
      load crowded
      factor ⟨defaultTarget, id⟩ : Action (SparseFactorization ℚ) Unit) (new exactly)
    (fun _ u => u.compressions == 1) (by decide +kernel)
  obtain ⟨_, s, allocated, rest⟩ := ok_of_bind run
  obtain ⟨_, t, loaded, factored⟩ := ok_of_bind rest
  exact ⟨s, t, u, allocated, loaded, factored, beq_iff_eq.mp check,
    staged_of_factor (BasisMatrix.accepted_of_isOk (by decide +kernel)) (by decide +kernel)
      allocated loaded factored⟩

/-- Without the bound on the spare entries, two stages may have their pivots in one row. -/
theorem not_staged_of_overlap : ∃ s t u, entangled.Accepted ∧
    allocate 5 300 18 (new boundless) = .ok () s ∧ load entangled s = .ok () t ∧
    factor ⟨defaultTarget, id⟩ t = .ok () u ∧ u.factors.pivotRows = #[2, 2, 4, 0, 1] ∧
    ¬u.factors.Staged entangled.dimension := by
  obtain ⟨_, u, run, check⟩ := @exists_ok_of_check _ _ (do
      allocate 5 300 18
      load entangled
      factor ⟨defaultTarget, id⟩ : Action (SparseFactorization ℚ) Unit) (new boundless)
    (fun _ u => u.factors.pivotRows == #[2, 2, 4, 0, 1]) (by decide +kernel)
  obtain ⟨_, s, allocated, rest⟩ := ok_of_bind run
  obtain ⟨_, t, loaded, factored⟩ := ok_of_bind rest
  rw [beq_iff_eq] at check
  refine ⟨s, t, u, BasisMatrix.accepted_of_isOk (by decide +kernel), allocated, loaded, factored,
    check, fun staged => ?_⟩
  have distinct := staged.rows.nodup_iff.mpr List.nodup_range
  rw [check] at distinct
  exact absurd distinct (by decide)

end SparseFactorization

end SimplexBasis
