import SimplexBasis.Proofs.Dense.Factorization
import SimplexBasis.Sparse.Positions

/-!
# Positions of the columns

After a factorization that found all pivots, every column has a position of its own, and the variables
of the columns can be written to them. A sparse factorization builds its transposes on this occasion.
-/

set_option linter.unusedSectionVars false

namespace SimplexBasis

variable {α : Type} [Scalar α] {n k l : Nat}

/-! ### Arrays of all numbers -/

section Arrays

variable {xs rows cols sequence heading : Array Nat}

theorem size_of_perm (perm : xs.toList.Perm (List.range n)) : xs.size = n := by
  rw [← Array.length_toList, perm.length_eq, List.length_range]

theorem getD_lt_of_perm (perm : xs.toList.Perm (List.range n)) (hk : k < n) :
    xs.getD k 0 < n := by
  have size := size_of_perm perm
  have member : xs.getD k 0 ∈ xs.toList := by simp [Array.getD, size, hk]
  exact List.mem_range.mp (perm.mem_iff.mp member)

theorem getD_inj_of_perm (perm : xs.toList.Perm (List.range n)) (hk : k < n) (hl : l < n)
    (same : xs.getD k 0 = xs.getD l 0) : k = l := by
  have size := size_of_perm perm
  have distinct := perm.nodup_iff.mpr List.nodup_range
  have read : ∀ i < n, xs.toList[i]? = some (xs.getD i 0) := fun i hi => by
    simp [Array.getD, size, hi]
  exact nodup_getElem? distinct (read k hk) ((read l hl).trans (congrArg some same.symm))

/-- Variables written to the rows that are pivoted with their columns. The other rows keep theirs. -/
theorem writes_ok {m : Nat} (sizeRows : rows.size = m) (sizeCols : cols.size = m)
    (distinct : rows.toList.Nodup) (insideRows : ∀ i ∈ rows.toList, i < heading.size)
    (insideCols : ∀ j ∈ cols.toList, j < sequence.size) :
    ∃ vs, (List.range m).foldlM (fun vs k => do
        (withEntry vs (← entry rows k) (← entry sequence (← entry cols k)) :
          Checked (Array Nat))) heading = .ok vs ∧ vs.size = heading.size ∧
      (∀ k i j : Nat, rows[k]? = some i → cols[k]? = some j → vs[i]? = sequence[j]?) ∧
      ∀ i ∉ rows.toList, vs[i]? = heading[i]? := by
  refine (foldlM_ok (fun done (vs : Array Nat) => vs.size = heading.size ∧
    (∀ k i j : Nat, k < done.length → rows[k]? = some i → cols[k]? = some j →
      vs[i]? = sequence[j]?) ∧
    ∀ i ∉ rows.toList, vs[i]? = heading[i]?) ⟨rfl, by simp, fun _ _ => rfl⟩ ?_).imp
      fun vs ⟨run, size, written, others⟩ => ⟨run, size, fun k i j row => written k i j ?_ row,
        others⟩
  · rintro done k rest vs split ⟨size, written, others⟩
    obtain ⟨rfl, hk⟩ := range_split split
    obtain ⟨i, row⟩ : ∃ i, rows[done.length]? = some i := ⟨_, Array.getElem?_eq_getElem (by omega)⟩
    obtain ⟨j, col⟩ : ∃ j, cols[done.length]? = some j := ⟨_, Array.getElem?_eq_getElem (by omega)⟩
    have member : i ∈ rows.toList := Array.mem_toList_iff.mpr (Array.mem_of_getElem? row)
    have hi : i < vs.size := size ▸ insideRows i member
    have hj := insideCols j (Array.mem_toList_iff.mpr (Array.mem_of_getElem? col))
    refine ⟨vs.setIfInBounds i sequence[j], ?_, Array.size_setIfInBounds.trans size,
      fun l i' j' hl row' col' => ?_, fun i' out => ?_⟩
    · rw [entry_eq_ok_iff.mpr row, checked_ok_bind, entry_eq_ok_iff.mpr col, checked_ok_bind,
        entry_eq_ok_iff.mpr (Array.getElem?_eq_getElem hj), checked_ok_bind, withEntry_of_lt _ hi]
    · rw [List.length_append, List.length_singleton] at hl
      by_cases last : l = done.length
      · subst last
        cases row.symm.trans row'
        cases col.symm.trans col'
        rw [Array.getElem?_setIfInBounds_self_of_lt hi, Array.getElem?_eq_getElem hj]
      · have other : i ≠ i' := by
          rintro rfl
          rw [← Array.getElem?_toList] at row row'
          exact last (nodup_getElem? distinct row' row)
        rw [Array.getElem?_setIfInBounds_ne other]
        exact written l i' j' (by omega) row' col'
    · have other : i ≠ i' := fun same => out (same ▸ member)
      rw [Array.getElem?_setIfInBounds_ne other]
      exact others i' out
  · rw [List.length_range, ← sizeRows]
    exact (Array.getElem?_eq_some_iff.mp row).1

theorem assignAll_ok (permRows : rows.toList.Perm (List.range n))
    (permCols : cols.toList.Perm (List.range n)) (sizeSequence : sequence.size = n)
    (sizeHeading : heading.size = n) :
    ∃ vs, (List.range n).foldlM (fun vs k => do
        (withEntry vs (← entry rows k) (← entry sequence (← entry cols k)) :
          Checked (Array Nat))) heading = .ok vs ∧ vs.size = n ∧
      ∀ k < n, vs.getD (rows.getD k 0) 0 = sequence.getD (cols.getD k 0) 0 := by
  obtain ⟨vs, run, size, written, -⟩ := writes_ok (size_of_perm permRows) (size_of_perm permCols)
    (permRows.nodup_iff.mpr List.nodup_range)
    (fun i member => sizeHeading ▸ List.mem_range.mp (permRows.mem_iff.mp member))
    (fun j member => sizeSequence ▸ List.mem_range.mp (permCols.mem_iff.mp member))
  refine ⟨vs, run, size.trans sizeHeading, fun k hk => ?_⟩
  have row : rows[k]? = some (rows.getD k 0) := by simp [Array.getD, size_of_perm permRows, hk]
  have col : cols[k]? = some (cols.getD k 0) := by simp [Array.getD, size_of_perm permCols, hk]
  simp only [Array.getD_eq_getD_getElem?] at row col ⊢
  rw [written k _ _ row col]

end Arrays

/-! ### Dense factorizations -/

namespace DenseFactorization

variable {d : DenseFactorization α} {columns : List (List (Nat × α))} {e : Dense.Elimination α}

theorem positionOf_of_order {rows cols : Array Nat} {rank : Nat}
    (order : d.order = some ⟨rows, cols, rank⟩) (permRows : rows.toList.Perm (List.range n))
    (permCols : cols.toList.Perm (List.range n)) (full : rank = n) (hk : k < n) :
    d.positionOf (cols.getD k 0) = .ok (some (rows.getD k 0)) := by
  have sizeRows := size_of_perm permRows
  have sizeCols := size_of_perm permCols
  have inside : k < cols.size := by omega
  have found : cols.findIdx? (· == cols.getD k 0) = some k := by
    rw [Array.findIdx?_eq_some_iff_getElem]
    refine ⟨inside, by simp [Array.getD, inside], fun l hl same => ?_⟩
    have eq : cols.getD l 0 = cols.getD k 0 := by
      simpa [Array.getD, inside, Nat.lt_trans hl inside] using same
    have := getD_inj_of_perm permCols (by omega) hk eq
    omega
  unfold positionOf
  rw [order]
  dsimp only
  rw [found]
  dsimp only
  rw [if_pos (by omega), entry_getD 0 (by omega)]
  rfl

theorem Eliminated.positionOf_eq (h : Eliminated d columns e) (full : e.rank = d.dimension)
    (hk : k < d.dimension) :
    d.positionOf (e.cols.getD k 0) = .ok (some (e.rows.getD k 0)) :=
  positionOf_of_order h.order h.shape.rows h.shape.cols full hk

theorem Eliminated.assign_ok (h : Eliminated d columns e) {sequence heading : Array Nat}
    (sizeSequence : sequence.size = d.dimension) (sizeHeading : heading.size = d.dimension) :
    ∃ vs, d.assign sequence heading = .ok vs ∧ vs.size = d.dimension ∧
      ∀ k < d.dimension, vs.getD (e.rows.getD k 0) 0 = sequence.getD (e.cols.getD k 0) 0 := by
  unfold assign
  rw [h.order]
  exact assignAll_ok h.shape.rows h.shape.cols sizeSequence sizeHeading

theorem Eliminated.slackPairs_eq (h : Eliminated d columns e) : ∃ rows cols : List Nat,
    d.slackPairs = cols.zip rows ∧
    (e.rows.toList.take e.rank ++ rows).Perm (List.range d.dimension) ∧
    (e.cols.toList.take e.rank ++ cols).Perm (List.range d.dimension) := by
  have complete : ∀ xs : Array Nat, xs.toList.Perm (List.range d.dimension) →
      (xs.toList.take e.rank ++ (xs.toList.drop e.rank).mergeSort fun a b => a ≤ b).Perm
        (List.range d.dimension) := fun xs perm =>
    ((List.mergeSort_perm _ _).append_left _).trans (by rwa [List.take_append_drop])
  refine ⟨_, _, ?_, complete _ h.shape.rows, complete _ h.shape.cols⟩
  unfold slackPairs
  rw [h.order]

end DenseFactorization

/-! ### Sparse factorizations -/

namespace Factors

variable {all : List (Stage α)} {f : Factors α}

theorem positionOf_eq (triangular : Triangular n all) (full : n ≤ all.length)
    (stages : f.stageOfCol = (Array.range n).map fun j => (all.map Stage.col).idxOf? j)
    (rows : f.pivotRows = (all.map Stage.row).toArray) (hk : k < n) :
    f.positionOf ((all.map Stage.col).toArray.getD k 0) =
      .ok (some ((all.map Stage.row).toArray.getD k 0)) := by
  have length := Nat.le_antisymm triangular.length_le full
  have inside : k < (all.map Stage.col).length := by rw [List.length_map, length]; exact hk
  have column : (all.map Stage.col).toArray.getD k 0 = (all.map Stage.col)[k] := by
    simp [Array.getD, hk, length]
  have range := (triangular.fits (List.getElem_mem (l := all) (n := k) (by omega))).2
  have stage : f.stageOfCol.getD ((all.map Stage.col).toArray.getD k 0) none = some k := by
    have place := triangular.nodup_cols.idxOf_getElem k inside
    rw [stages, column]
    have member : (all.map Stage.col)[k] ∈ all.map Stage.col := List.getElem_mem _
    rw [List.getElem_map] at member place ⊢
    simp [Array.getD, range, idxOf?_of_mem member, place]
  unfold positionOf
  rw [stage]
  dsimp only
  rw [entry_getD 0 (by rw [rows]; simp [length, hk]), rows]
  rfl

/-- The factors of stages, by rows of the lower and by columns of the upper factor. -/
def numberedTransposes (all : List (Stage α)) : Transposes α where
  lowerRows := .ofLines (Compressed.transposed
    (all.map fun st => renumbered (all.map Stage.row) st.lower) all.length)
  upperCols := .ofLines (Compressed.transposed
    (all.map fun st => renumbered (all.map Stage.col) st.upper) all.length)

theorem withTransposes_numbered (triangular : Triangular n all) (full : n ≤ all.length) :
    (numbered n all).withTransposes n =
      .ok { numbered n all with transposes := some (numberedTransposes all) } := by
  obtain rfl := Nat.le_antisymm triangular.length_le full
  have insideLower : ∀ line ∈ all.map fun st => renumbered (all.map Stage.row) st.lower,
      ∀ i ∈ keys line, i < all.length := by
    intro line member i hi
    obtain ⟨k, hk, rfl⟩ := List.getElem_of_mem member
    rw [List.length_map] at hk
    obtain ⟨line, read, -, beyond⟩ := beyond_lower (n := all.length) triangular k hk
    cases (line_lower hk).symm.trans read
    exact (beyond i (by simpa using hi)).2
  have insideUpper : ∀ line ∈ all.map fun st => renumbered (all.map Stage.col) st.upper,
      ∀ i ∈ keys line, i < all.length := by
    intro line member i hi
    obtain ⟨k, hk, rfl⟩ := List.getElem_of_mem member
    rw [List.length_map] at hk
    obtain ⟨line, read, -, beyond⟩ := beyond_upper (n := all.length) triangular k hk
    cases (line_upper hk).symm.trans read
    exact (beyond i (by simpa using hi)).2
  have lower := Compressed.transpose_ofLines (m := all.length) (by simp) insideLower
  have upper := Compressed.transpose_ofLines (m := all.length) (by simp) insideUpper
  unfold withTransposes
  change (Compressed.transpose (.ofLines _) _ >>= fun lowerRows =>
    Compressed.transpose (.ofLines _) _ >>= fun upperCols => _) = _
  rw [lower, checked_ok_bind, upper]
  rfl

end Factors

namespace SparseFactorization

variable {s : SparseFactorization α} {columns : List (List (Nat × α))} {all : List (Stage α)}

theorem Singular.slackPairs_eq (h : Singular s columns all) :
    s.slackPairs = (leftOf s.dimension (all.map Stage.col)).zip
      (leftOf s.dimension (all.map Stage.row)) := by
  unfold slackPairs
  rw [h.factors]
  exact congrArg₂ List.zip (Factors.unpivoted_eq _) (Factors.unpivoted_eq _)

def transposed (s : SparseFactorization α) (all : List (Stage α)) : SparseFactorization α :=
  { s with
    factors := { s.factors with transposes := some (Factors.numberedTransposes all) }
    sparseThreshold := s.tunedThreshold
    journal := s.journal.push ⟨.trace, s.logTarget,
      s!"sparse solves for right-hand sides up to {s.tunedThreshold} nonzeros"⟩ }

theorem Factorized.buildTransposes_run (h : Factorized s columns all) :
    buildTransposes s = .ok () (s.transposed all) := by
  have built := Factors.withTransposes_numbered h.derived.triangular h.full
  have none_ : s.factors.transposes = none := by rw [h.factors]; rfl
  unfold buildTransposes
  rw [get_bind, if_neg (by simp [h.phase, none_]), h.factors, built, lift_ok_bind]
  simp only [bind_of_ok (updateFactors_run _), modify_bind, log_run, transposed, h.factors]

theorem assign_run {t : SparseFactorization α} {sequence heading vs : Array Nat}
    (written : (List.range s.factors.rank).foldlM (fun vs k => do
        (withEntry vs (← entry s.factors.pivotRows k)
          (← entry sequence (← entry s.factors.pivotCols k)) : Checked (Array Nat))) heading = .ok vs)
    (built : buildTransposes s = .ok () t) : assign sequence heading s = .ok vs t := by
  unfold assign
  rw [get_bind, bind_of_ok (foldlM_lift ?_ written s), bind_of_ok built]
  · rfl
  · intro ys k zs step t
    obtain ⟨i, readRow, step⟩ := except_bind_eq_ok.mp step
    obtain ⟨j, readCol, step⟩ := except_bind_eq_ok.mp step
    obtain ⟨x, readVariable, step⟩ := except_bind_eq_ok.mp step
    rw [readRow, lift_ok_bind, readCol, lift_ok_bind, readVariable, lift_ok_bind, step]
    rfl

theorem Factorized.assign_run (h : Factorized s columns all) {sequence heading : Array Nat}
    (sizeSequence : sequence.size = s.dimension) (sizeHeading : heading.size = s.dimension) :
    ∃ vs, assign sequence heading s = .ok vs (s.transposed all) ∧ vs.size = s.dimension ∧
      ∀ k < s.dimension, vs.getD ((all.map Stage.row).toArray.getD k 0) 0 =
        sequence.getD ((all.map Stage.col).toArray.getD k 0) 0 := by
  have triangular := h.derived.triangular
  have length := Nat.le_antisymm triangular.length_le h.full
  have permRows : (all.map Stage.row).toArray.toList.Perm _ := triangular.rows_perm h.full
  have permCols : (all.map Stage.col).toArray.toList.Perm _ := triangular.cols_perm h.full
  obtain ⟨vs, run, size, written⟩ := assignAll_ok permRows permCols sizeSequence sizeHeading
  refine ⟨vs, SparseFactorization.assign_run ?_ h.buildTransposes_run, size, written⟩
  have rank : s.factors.rank = s.dimension := by
    rw [h.factors]
    simp [Factors.rank, Factors.numbered, Factors.ofStages, length]
  have rows : s.factors.pivotRows = (all.map Stage.row).toArray := by rw [h.factors]; rfl
  have cols : s.factors.pivotCols = (all.map Stage.col).toArray := by rw [h.factors]; rfl
  rw [rank, rows, cols]
  exact run

end SparseFactorization

end SimplexBasis
