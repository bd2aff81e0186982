import SimplexBasis.Proofs.Sparse.Reached

/-!
# Pivots as Schur complements

A pivot takes the product of its column and its row out of the rest of the active submatrix, whether
its column, its row or neither of them is a singleton. The stored entries after it are described one
by one: what is computed is dropped where it does not exceed the zero tolerance, and everything else
stays as it was stored.
-/

set_option linter.unusedSectionVars false

namespace SimplexBasis

variable {v w : ActiveView ℚ} {m i j r c : Nat} {x y tolerance : ℚ} {rowsDone colsDone : List Nat}

namespace ActiveView

/-- The contents `w` after the pivot `x` in row `r` and column `c` of the contents `v`. -/
structure Reduced (v w : ActiveView ℚ) (m : Nat) (tolerance : ℚ) (r c : Nat) (x : ℚ) : Prop where
  /-- Row `i` meets the pivot column and column `j` meets the pivot row. -/
  crossing : ∀ i < m, ∀ j < m, i ≠ r → j ≠ c → i ∈ keys (v.cols c) → r ∈ keys (v.cols j) →
    ∀ y, (i, y) ∈ w.cols j ↔
      tolerance < |y| ∧ y = v.value i j - v.value i c / x * v.value r j
  other : ∀ i < m, ∀ j < m, i ≠ r → j ≠ c → ¬(i ∈ keys (v.cols c) ∧ r ∈ keys (v.cols j)) →
    ∀ y, (i, y) ∈ w.cols j ↔ (i, y) ∈ v.cols j
  pivotRow : ∀ j < m, r ∉ keys (w.cols j)
  pivotCol : w.cols c = []

namespace Consistent

variable (h : v.Consistent m rowsDone colsDone)
include h

theorem reduced_columnPivot (hc : c < m) (only : v.cols c = [(r, x)]) :
    v.Reduced (v.columnPivot r c) m tolerance r c x := by
  have hr := (h.colRange c hc r (by simp [only])).1
  have cols := fun {j : Nat} (hj : j < m) => h.cols_columnPivot (j := c) hr hj
  constructor
  · intro i hi j hj otherRow otherCol inCol
    simp [only, otherRow] at inCol
  · intro i hi j hj otherRow otherCol _ y
    rw [cols hj, if_neg otherCol, mem_withoutKey (h.distinctCols j hj)]
    simp [otherRow]
  · intro j hj
    rw [cols hj]
    split
    · simp
    · rw [mem_keys_withoutKey (h.distinctCols j hj)]
      simp
  · rw [cols hc, if_pos rfl]

theorem reduced_rowPivot (hr : r < m) (only : v.rows r = [c]) :
    v.Reduced (v.rowPivot r c) m tolerance r c x := by
  -- The pivot row has no entry in another column.
  have alone : ∀ j < m, j ≠ c → r ∉ keys (v.cols j) := fun j hj ne key => by
    have member := (h.agree r hr j hj).mpr key
    simp [only, ne] at member
  constructor
  · intro i hi j hj otherRow otherCol _ inRow
    exact absurd inRow (alone j hj otherCol)
  · intro i hi j hj otherRow otherCol _ y
    rw [cols_rowPivot, Function.update_of_ne otherCol]
  · intro j hj
    rw [cols_rowPivot, Function.update_apply]
    split
    · simp
    · exact alone j hj ‹_›
  · rw [cols_rowPivot, Function.update_self]

theorem reduced_generalPivot (hr : r < m) (hc : c < m) :
    v.Reduced (v.generalPivot tolerance r c x) m tolerance r c x := by
  have crosses : ∀ {j : Nat}, j < m → j ≠ c → (j ∈ v.crossingCols r c ↔ r ∈ keys (v.cols j)) :=
    fun {j} hj ne => by
      rw [mem_crossingCols, ← h.agree r hr j hj]
      simp [ne]
  constructor
  · intro i hi j hj otherRow otherCol inCol inRow y
    rw [cols_generalPivot]
    dsimp only
    rw [if_neg otherCol, if_pos ((crosses hj otherCol).mpr inRow)]
    exact h.mem_newColumn_crossing hc hj (mem_crossingRows.mpr ⟨otherRow, inCol⟩)
  · intro i hi j hj otherRow otherCol apart y
    rw [cols_generalPivot]
    dsimp only
    rw [if_neg otherCol]
    split
    · rename_i touched
      have fresh : i ∉ v.crossingRows r c := fun crossing =>
        apart ⟨(mem_crossingRows.mp crossing).2, (crosses hj otherCol).mp touched⟩
      rw [mem_newColumn_other fresh]
      simp [otherRow]
    · exact Iff.rfl
  · intro j hj key
    rw [cols_generalPivot] at key
    dsimp only at key
    split at key
    · simp at key
    · rename_i otherCol
      split at key
      · exact (h.mem_newColumn hr hc hj key).2.1 rfl
      · exact absurd ((crosses hj otherCol).mpr key) ‹_›
  · simp [cols_generalPivot]

theorem reduced_pivotAt (hc : c < m) (pivot : (r, x) ∈ v.cols c) :
    v.Reduced (v.pivotAt tolerance r c x) m tolerance r c x := by
  have keyed : r ∈ keys (v.cols c) := List.mem_map_of_mem (f := Prod.fst) pivot
  have hr := (h.colRange c hc r keyed).1
  unfold pivotAt
  split
  · rename_i single
    obtain ⟨e, only⟩ := List.length_eq_one_iff.mp single
    obtain rfl : (r, x) = e := by simpa [only] using pivot
    exact h.reduced_columnPivot hc only
  · split
    · rename_i single
      obtain ⟨k, only⟩ := List.length_eq_one_iff.mp single
      obtain rfl : c = k := by
        have member := (h.agree r hr c hc).mpr keyed
        simpa [only] using member
      exact h.reduced_rowPivot hr only
    · exact h.reduced_generalPivot hr hc

end Consistent

section Lengths

variable {α : Type} [Scalar α] {v : ActiveView α} {x : α}

theorem length_stageAt_lower :
    (v.stageAt r c x).lower.length = (v.crossingRows r c).length := by
  rw [← keys_stageAt_lower v r c x, List.length_map]

theorem length_stageAt_upper :
    (v.stageAt r c x).upper.length = (v.crossingCols r c).length := by
  rw [← keys_stageAt_upper v r c x, List.length_map]

end Lengths

end ActiveView

/-! ### Space in the factors -/

namespace SparseFactorization

section Space

variable {α : Type} [Scalar α] {s t : SparseFactorization α} {stages : List (Stage α)}
  {v : ActiveView α} {x : α} {extra : Nat}

/-- The column or the row of a pivot does not fit into the factors any more. -/
def Lacks (s : SparseFactorization α) (v : ActiveView α) (r c : Nat) : Prop :=
  s.capacity.lower < s.factors.lower.count + (v.crossingRows r c).length ∨
    s.capacity.upper < s.factors.upper.count + (v.crossingCols r c).length

theorem Working.lacks_columnSingleton (h : Working s m stages v) (hc : c < m)
    (only : v.cols c = [(r, x)]) (lacks : s.Lacks v r c) :
    SparseFactorization.pivotColumnSingleton r c s = .error (.status .outOfMemory) s := by
  have consistent := h.consistent
  have keyed : r ∈ keys (v.cols c) := by simp [only]
  have hr := (consistent.colRange c hc r keyed).1
  have member : c ∈ v.rows r := (consistent.agree r hr c hc).mpr keyed
  have others := length_filter_ne (consistent.distinctRows r hr) member
  have bound := h.row_length_le hr
  have upper : s.capacity.upper < s.factors.upper.count + ((v.rows r).length - 1) := by
    rcases lacks with lower | upper
    · have full := h.contained.lower
      simp only [ActiveView.crossingRows, only] at lower
      simp at lower
      omega
    · rw [ActiveView.crossingCols] at upper
      omega
  unfold SparseFactorization.pivotColumnSingleton
  simp only [get_bind, h.active.cols.line_eq hc, only, lift_ok_bind, beq_self_eq_true,
    require_true_bind, h.active.rows.line_eq hr]
  rw [Word.sub_of_le (by omega)]
  refine bind_of_error ?_
  rw [h.contained.checkUpper_eq (by omega), if_pos upper]

theorem Working.lacks_rowSingleton (h : Working s m stages v) (hr : r < m)
    (only : v.rows r = [c]) (pivot : (r, x) ∈ v.cols c) (lacks : s.Lacks v r c) :
    SparseFactorization.pivotRowSingleton r c s = .error (.status .outOfMemory) s := by
  have consistent := h.consistent
  have hc := (consistent.rowRange r hr c (by simp [only])).1
  have keyed : r ∈ keys (v.cols c) := List.mem_map_of_mem pivot
  have others := length_filter_key_ne (consistent.distinctCols c hc) keyed
  have bound := h.col_length_le hc
  have lower : s.capacity.lower < s.factors.lower.count + ((v.cols c).length - 1) := by
    rcases lacks with lower | upper
    · rw [ActiveView.crossingRows, List.length_map] at lower
      omega
    · have full := h.contained.upper
      simp only [ActiveView.crossingCols, only] at upper
      simp at upper
      omega
  unfold SparseFactorization.pivotRowSingleton
  simp only [get_bind, h.active.rows.length_eq hr, only, List.length_singleton, lift_ok_bind,
    beq_self_eq_true, require_true_bind, h.value?_eq hc pivot, h.active.cols.line_eq hc]
  rw [Word.sub_of_le (by omega)]
  refine bind_of_error ?_
  rw [h.contained.checkLower_eq (by omega), if_pos lower]

theorem Working.lacks_pivotGeneral (h : Working s m stages v) (hc : c < m)
    (pivot : (r, x) ∈ v.cols c) (lacks : s.Lacks v r c) :
    SparseFactorization.pivotGeneral r c s = .error (.status .outOfMemory) s := by
  have consistent := h.consistent
  have hr := (consistent.colRange c hc r (List.mem_map_of_mem (f := Prod.fst) pivot)).1
  have fewLower : (v.stageAt r c x).lower.length ≤ addressableWords := by
    have few := (v.cols c).length_filter_le (·.1 != r)
    have bound := h.col_length_le hc
    rw [ActiveView.stageAt, List.length_map]
    omega
  have fewUpper : (v.stageAt r c x).upper.length ≤ addressableWords := by
    have few := (v.rows r).length_filter_le (· != c)
    have bound := h.row_length_le hr
    rw [ActiveView.stageAt, List.length_map]
    omega
  unfold SparseFactorization.pivotGeneral
  simp only [get_bind, h.value?_eq hc pivot, lift_ok_bind, h.active.cols.line_eq hc,
    h.active.rows.line_eq hr]
  rw [bind_of_ok (mapM_run fun j hj => by
    obtain ⟨y, hy⟩ := consistent.exists_value hr (List.mem_filter.mp hj).1
    have range := (consistent.rowRange r hr j (List.mem_filter.mp hj).1).1
    rw [h.value?_eq range hy, lift_ok_bind, Option.getD_some,
      ← valueAt_of_mem (consistent.distinctCols j range) hy]
    rfl)]
  have checkedLower := h.contained.checkLower_eq fewLower
  by_cases lower : s.capacity.lower < s.factors.lower.count + (v.stageAt r c x).lower.length
  · rw [if_pos lower] at checkedLower
    exact bind_of_error checkedLower
  rw [if_neg lower] at checkedLower
  rw [bind_of_ok (by exact checkedLower)]
  have checkedUpper := h.contained.checkUpper_eq fewUpper
  rw [ActiveView.length_stageAt_lower] at lower
  rw [if_pos (by
    rw [ActiveView.length_stageAt_upper]
    exact lacks.resolve_left lower)] at checkedUpper
  exact bind_of_error checkedUpper

theorem Working.lacks_pivotOn (h : Working s m stages v) (hc : c < m) (pivot : (r, x) ∈ v.cols c)
    (lacks : s.Lacks v r c) :
    SparseFactorization.pivotOn r c s = .error (.status .outOfMemory) s := by
  have consistent := h.consistent
  have keyed : r ∈ keys (v.cols c) := List.mem_map_of_mem (f := Prod.fst) pivot
  have hr := (consistent.colRange c hc r keyed).1
  have member := (consistent.agree r hr c hc).mpr keyed
  unfold SparseFactorization.pivotOn
  simp only [get_bind, h.active.cols.length_eq hc, h.active.rows.length_eq hr, lift_ok_bind]
  split
  · rename_i single
    obtain ⟨e, only⟩ := List.length_eq_one_iff.mp single
    obtain rfl : (r, x) = e := by simpa [only] using pivot
    exact bind_of_error (h.lacks_columnSingleton hc only lacks)
  · rw [lift_ok_bind]
    split
    · rename_i single
      obtain ⟨k, only⟩ := List.length_eq_one_iff.mp single
      obtain rfl : c = k := by simpa [only] using member
      exact bind_of_error (h.lacks_rowSingleton hr only pivot lacks)
    · exact h.lacks_pivotGeneral hc pivot lacks

end Space

/-! ### The step -/

variable {s t : SparseFactorization ℚ} {stages : List (Stage ℚ)}

/-- The factors `g` are `f` with the stage of the pivot `x` in row `r` and column `c` of `v`. -/
structure Gained (f g : Factors ℚ) (v : ActiveView ℚ) (r c : Nat) (x : ℚ) : Prop where
  pivotRows : g.pivotRows = f.pivotRows.push r
  pivotCols : g.pivotCols = f.pivotCols.push c
  inverses : g.inverses = f.inverses.push (1 / x)
  lower : g.lower =
    f.lower.pushLine (((v.cols c).filter (·.1 != r)).map fun e => (e.1, e.2 / x))
  upper : g.upper =
    f.upper.pushLine (((v.rows r).filter (· != c)).map fun j => (j, v.value r j))

theorem gained_ofStages : Gained (Factors.ofStages m stages)
    (Factors.ofStages m (stages ++ [v.stageAt r c x])) v r c x where
  pivotRows := by simp [Factors.ofStages, ActiveView.stageAt]
  pivotCols := by simp [Factors.ofStages, ActiveView.stageAt]
  inverses := by simp [Factors.ofStages, ActiveView.stageAt]
  lower := by
    simp only [Factors.ofStages, List.map_append, List.map_singleton, Compressed.ofLines_concat]
    rfl
  upper := by
    simp only [Factors.ofStages, List.map_append, List.map_singleton, Compressed.ofLines_concat]
    rfl

/-- A pivot that goes through is a Schur complement and records its stage; one that does not fit into
the factors changes nothing. -/
theorem pivotOn_reduces (h : Working s m stages v) (hc : c < m) (pivot : (r, x) ∈ v.cols c) :
    (∀ t, pivotOn r c s = .ok () t → ∃ w, Working t m (stages ++ [v.stageAt r c x]) w ∧
      v.Reduced w m s.options.zeroTolerance r c x ∧ Gained s.factors t.factors v r c x) ∧
    (s.Lacks v r c → pivotOn r c s = .error (.status .outOfMemory) s) := by
  refine ⟨fun t run => ?_, h.lacks_pivotOn hc pivot⟩
  obtain ⟨working, -⟩ := (h.pivotOn hc pivot).result run
  refine ⟨_, working, h.consistent.reduced_pivotAt hc pivot, ?_⟩
  rw [h.factors, working.factors]
  exact gained_ofStages

/-- The first pivot of a basis whose lines have room. -/
theorem pivotOn_reduces_entangled : ∃ (s t : SparseFactorization ℚ) (stages : List (Stage ℚ))
    (v : ActiveView ℚ), Working s 5 stages v ∧ 1 < 5 ∧ (2, -2) ∈ v.cols 1 ∧
    pivotOn 2 1 s = .ok () t ∧
    (∀ t, pivotOn 2 1 s = .ok () t → ∃ w, Working t 5 (stages ++ [v.stageAt 2 1 (-2)]) w ∧
      v.Reduced w 5 s.options.zeroTolerance 2 1 (-2) ∧ Gained s.factors t.factors v 2 1 (-2)) ∧
    (s.Lacks v 2 1 → pivotOn 2 1 s = .error (.status .outOfMemory) s) := by
  obtain ⟨s, t, run, check⟩ := @exists_ok_of_check _ _ (do
      allocate 5 300 300
      load entangled
      let s ← get
      pivotOn 2 1
      return s : Action (SparseFactorization ℚ) (SparseFactorization ℚ)) (new exactly)
    (fun s _ => s.pending.isNone && s.dimension == 5 &&
      (s.active.cols.line 1).toOption == some [(2, -2), (1, -1), (0, 4)]) (by decide +kernel)
  obtain ⟨_, q, allocated, rest⟩ := ok_of_bind run
  obtain ⟨_, r, loaded, rest⟩ := ok_of_bind rest
  rw [get_bind] at rest
  obtain ⟨_, _, pivoted, ⟨⟩⟩ := ok_of_bind rest
  simp only [Bool.and_eq_true, beq_iff_eq, Option.isNone_iff_eq_none] at check
  obtain ⟨⟨complete, dimension⟩, line⟩ := check
  have reached : Reached exactly entangled s :=
    .load (BasisMatrix.accepted_of_isOk (by decide +kernel)) rfl allocated loaded complete
  obtain ⟨stages, v, working, -⟩ := reached.shown (by decide +kernel)
  rw [dimension] at working
  have column : v.cols 1 = [(2, -2), (1, -1), (0, 4)] :=
    Except.ok.inj ((working.active.cols.line_eq (by omega)).symm.trans (eq_ok_of_toOption line))
  have pivot : (2, -2) ∈ v.cols 1 := by simp [column]
  exact ⟨s, t, stages, v, working, by omega, pivot, pivoted, pivotOn_reduces working (by omega) pivot⟩

/-- Without the bound on the spare entries a pivot in an intact active submatrix need not be a Schur
complement: a column that the pivot does not meet loses an entry. -/
theorem not_reduced_of_overlap : ∃ (s t : SparseFactorization ℚ) (v : ActiveView ℚ)
    (rowsDone colsDone : List Nat), Reached boundless entangled s ∧
    s.active.Shows s.dimension s.capacity.files v ∧ v.Consistent s.dimension rowsDone colsDone ∧
    v.MaxKnown s.dimension colsDone ∧ 1 < s.dimension ∧ (2, -2) ∈ v.cols 1 ∧
    pivotOn 2 1 s = .ok () t ∧ ¬∃ w, t.active.Shows s.dimension t.capacity.files w ∧
      v.Reduced w s.dimension s.options.zeroTolerance 2 1 (-2) := by
  -- With no spare entries the loaded lines stand in the same places, and there the view is known.
  obtain ⟨⟨u, s⟩, t, run, check⟩ := @exists_ok_of_check _ _ (do
      allocate 5 300 18
      load entangled
      let u ← get
      modify fun _ => new boundless
      allocate 5 300 18
      load entangled
      let s ← get
      pivotOn 2 1
      return (u, s) : Action (SparseFactorization ℚ)
        (SparseFactorization ℚ × SparseFactorization ℚ)) (new { boundless with stretch := 0 })
    (fun (u, s) t => u.pending.isNone && s.pending.isNone && decide (s.active = u.active) &&
      decide (s.capacity = u.capacity) && u.dimension == 5 && s.dimension == 5 &&
      (u.active.cols.line 0).toOption == some [(0, -1), (3, -2), (1, 1)] &&
      (u.active.cols.line 1).toOption == some [(2, -2), (1, -1), (0, 4)] &&
      (t.active.cols.line 0).toOption == some [(0, -1), (3, -2), (2, -2)]) (by decide +kernel)
  obtain ⟨_, q, allocated, rest⟩ := ok_of_bind run
  obtain ⟨_, r, loaded, rest⟩ := ok_of_bind rest
  rw [get_bind, modify_bind] at rest
  obtain ⟨_, q', allocated', rest⟩ := ok_of_bind rest
  obtain ⟨_, r', loaded', rest⟩ := ok_of_bind rest
  rw [get_bind] at rest
  obtain ⟨_, _, pivoted, ⟨⟩⟩ := ok_of_bind rest
  simp only [Bool.and_eq_true, beq_iff_eq, decide_eq_true_iff, Option.isNone_iff_eq_none] at check
  obtain ⟨⟨⟨⟨⟨⟨⟨⟨complete, complete'⟩, active⟩, capacity⟩, size⟩, size'⟩, first⟩, second⟩, after⟩ := check
  have accepted : entangled.Accepted := BasisMatrix.accepted_of_isOk (by decide +kernel)
  have spread : Reached { boundless with stretch := 0 } entangled u :=
    .load accepted rfl allocated loaded complete
  have reached : Reached boundless entangled s := .load accepted rfl allocated' loaded' complete'
  obtain ⟨stages, v, working, known⟩ := spread.shown (by decide +kernel)
  have shows := working.active
  have consistent := working.consistent
  have known := known inferInstance
  rw [size] at shows consistent known
  have column : ∀ {j : Nat} {entries : List (Nat × ℚ)}, j < 5 →
      (u.active.cols.line j).toOption = some entries → v.cols j = entries := fun hj read =>
    Except.ok.inj ((shows.cols.line_eq hj).symm.trans (eq_ok_of_toOption read))
  refine ⟨s, t, v, stages.map Stage.row, stages.map Stage.col, reached, ?_, ?_, ?_, by omega,
    by simp [column (by omega) second], pivoted, ?_⟩
  · rw [size', active, capacity]
    exact shows
  · rw [size']
    exact consistent
  · rw [size']
    exact known
  · rintro ⟨w, shows', reduced⟩
    rw [size'] at shows' reduced
    have left : w.cols 0 = [(0, -1), (3, -2), (2, -2)] :=
      Except.ok.inj ((shows'.cols.line_eq (by omega)).symm.trans (eq_ok_of_toOption after))
    have kept := (reduced.other 1 (by omega) 0 (by omega) (by omega) (by omega)
      (by simp [column (j := 0) (by omega) first]) 1).mpr (by simp [column (j := 0) (by omega) first])
    simp [left] at kept

end SparseFactorization

end SimplexBasis
