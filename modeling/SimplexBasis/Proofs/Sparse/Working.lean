import SimplexBasis.Proofs.Sparse.Consistency
import SimplexBasis.Sparse.State

/-!
# States between two pivots

`Working s m stages v` says that `s` has completed the given stages and that its active submatrix
shows the consistent view `v`. A pivot changes the active submatrix, the factors, the workspace, the
counters and the journal only, which is said by the equality of `setup` before and after it.
-/

set_option linter.unusedSectionVars false

namespace SimplexBasis

variable {α β : Type} [Scalar α]

/-- A value that a solve takes for zero. In double precision it may be the negative zero. -/
def Scalar.Vanishes (x : α) : Prop := x = 0 ∨ (x != 0) = false

/-- A workspace in which no list of rows is in use and no solve is going on. -/
structure Workspace.Ready (w : Workspace α) (m : Nat) : Prop where
  slot : w.slot = Array.replicate m none
  size : w.values.size = m
  vanish : ∀ k < m, Scalar.Vanishes (w.values.getD k 0)
  marked : w.marked.size = m
  marks : ∀ k < m, w.marked.getD k 0 ≤ w.marker
  pattern : w.pattern.size = m
  resume : w.resume.size = m

namespace SparseFactorization

/-- What pivots leave as it is. -/
def setup (s : SparseFactorization α) : SparseFactorization α :=
  { s with
    active := .void
    factors := .blank 0
    workspace := .blank 0
    counters := .zero
    journal := #[] }

variable {s t : SparseFactorization α} {m : Nat} {stages : List (Stage α)} {v w : ActiveView α}

theorem options_of_setup (h : t.setup = s.setup) : t.options = s.options :=
  congrArg (·.options) h

theorem dimension_of_setup (h : t.setup = s.setup) : t.dimension = s.dimension :=
  congrArg (·.dimension) h

theorem capacity_of_setup (h : t.setup = s.setup) : t.capacity = s.capacity :=
  congrArg (·.capacity) h

/-! ### Components -/

theorem onActive_run {act : Action (Active α) β} {x : β} {a : Active α}
    (run : act s.active = .ok x a) : onActive act s = .ok x { s with active := a } :=
  Active.part_run run

theorem onActive_ends {act : Action (Active α) β} {Q : β → SparseFactorization α → Prop}
    {E : Status → SparseFactorization α → Prop}
    (h : Ends (fun x a => Q x { s with active := a }) (fun e a => E e { s with active := a })
      (act s.active)) : Ends Q E (onActive act s) :=
  Ends.run _ _ h

theorem updateFactors_run (f : Factors α → Factors α) :
    updateFactors f s = .ok () { s with factors := f s.factors } := rfl

theorem updateCounters_run (f : Counters α → Counters α) :
    updateCounters f s = .ok () { s with counters := f s.counters } := rfl

theorem updateWorkspace_run (f : Workspace α → Workspace α) :
    updateWorkspace f s = .ok () { s with workspace := f s.workspace } := rfl

theorem log_run (level : Level) (message : String) : log level message s =
    .ok () { s with journal := s.journal.push ⟨level, s.logTarget, message⟩ } := rfl

theorem checkLower_ends {extra : Nat} {E : Status → SparseFactorization α → Prop}
    (full : E .outOfMemory s) :
    Ends (fun _ t => s = t ∧ ¬s.capacity.lower < Word.add s.factors.lower.count extra) E
      (checkLower extra s) := by
  unfold checkLower
  rw [get_bind]
  split
  · exact full
  · exact ⟨rfl, ‹_›⟩

theorem checkUpper_ends {extra : Nat} {E : Status → SparseFactorization α → Prop}
    (full : E .outOfMemory s) :
    Ends (fun _ t => s = t ∧ ¬s.capacity.upper < Word.add s.factors.upper.count extra) E
      (checkUpper extra s) := by
  unfold checkUpper
  rw [get_bind]
  split
  · exact full
  · exact ⟨rfl, ‹_›⟩

/-- A stage closed, with its pivot counted. -/
def closed (s : SparseFactorization α) (i j : Nat) (x : α) : SparseFactorization α :=
  { s with
    factors := s.factors.closeStage i j x
    counters := { s.counters with
      pivotRange := s.counters.pivotRange.extend (Scalar.abs x) } }

theorem closeStage_run (i j : Nat) (x : α) : closeStage i j x s = .ok () (s.closed i j x) := rfl

/-! ### Areas of the factors -/

/-- The factors do not exceed their areas. -/
structure Contained (s : SparseFactorization α) : Prop where
  lower : s.factors.lower.count ≤ s.capacity.lower
  upper : s.factors.upper.count ≤ s.capacity.upper
  lowerWords : s.capacity.lower ≤ addressableWords
  upperWords : s.capacity.upper ≤ addressableWords

theorem Contained.congr (h : s.Contained) (factors : t.factors = s.factors)
    (capacity : t.capacity = s.capacity) : t.Contained where
  lower := by rw [factors, capacity]; exact h.lower
  upper := by rw [factors, capacity]; exact h.upper
  lowerWords := capacity ▸ h.lowerWords
  upperWords := capacity ▸ h.upperWords

namespace Contained

variable {extra : Nat}

theorem checkLower_eq (h : s.Contained) (few : extra ≤ addressableWords) :
    checkLower extra s = if s.capacity.lower < s.factors.lower.count + extra then
      .error (.status .outOfMemory) s else .ok () s := by
  have lower := h.lower
  have area := h.lowerWords
  have small : s.factors.lower.count + extra < UInt64.size := by
    have size : UInt64.size = 18446744073709551616 := rfl
    simp only [addressableWords] at few area
    omega
  rw [checkLower, get_bind, Word.add_of_lt small]
  split <;> rfl

theorem checkUpper_eq (h : s.Contained) (few : extra ≤ addressableWords) :
    checkUpper extra s = if s.capacity.upper < s.factors.upper.count + extra then
      .error (.status .outOfMemory) s else .ok () s := by
  have upper := h.upper
  have area := h.upperWords
  have small : s.factors.upper.count + extra < UInt64.size := by
    have size : UInt64.size = 18446744073709551616 := rfl
    simp only [addressableWords] at few area
    omega
  rw [checkUpper, get_bind, Word.add_of_lt small]
  split <;> rfl

end Contained

/-! ### The invariant -/

/-- Completed stages and a consistent rest, as far as pivots without elimination depend on them. -/
structure Underway (s : SparseFactorization α) (m : Nat) (stages : List (Stage α))
    (v : ActiveView α) : Prop where
  dimension : s.dimension = m
  factors : s.factors = Factors.ofStages m stages
  active : s.active.Shows m s.capacity.files v
  consistent : v.Consistent m (stages.map Stage.row) (stages.map Stage.col)
  distinctRows : (stages.map Stage.row).Nodup
  distinctCols : (stages.map Stage.col).Nodup
  insideRows : ∀ i ∈ stages.map Stage.row, i < m
  insideCols : ∀ j ∈ stages.map Stage.col, j < m
  addressable : 2 * s.capacity.files ≤ addressableWords
  contained : s.Contained

/-- Completed stages and a consistent rest. -/
structure Working (s : SparseFactorization α) (m : Nat) (stages : List (Stage α))
    (v : ActiveView α) : Prop where
  dimension : s.dimension = m
  factors : s.factors = Factors.ofStages m stages
  active : s.active.Shows m s.capacity.files v
  consistent : v.Consistent m (stages.map Stage.row) (stages.map Stage.col)
  distinctRows : (stages.map Stage.row).Nodup
  distinctCols : (stages.map Stage.col).Nodup
  insideRows : ∀ i ∈ stages.map Stage.row, i < m
  insideCols : ∀ j ∈ stages.map Stage.col, j < m
  workspace : s.workspace.Ready m
  roomy : LineFile.Roomy s.options.spare m s.capacity.files
  addressable : 2 * s.capacity.files ≤ addressableWords
  contained : s.Contained

/-- Stages with rows and columns of their own below `m`. -/
structure Distinct (m : Nat) (stages : List (Stage α)) : Prop where
  rows : (stages.map Stage.row).Nodup
  cols : (stages.map Stage.col).Nodup
  insideRows : ∀ i ∈ stages.map Stage.row, i < m
  insideCols : ∀ j ∈ stages.map Stage.col, j < m

theorem distinct_nil : Distinct m ([] : List (Stage α)) :=
  ⟨List.nodup_nil, List.nodup_nil, by simp, by simp⟩

/-- A pivot behind the given stages could not be made for want of space. Its row and column are not
recorded. -/
def Stuck (s : SparseFactorization α) (m : Nat) (stages : List (Stage α)) (e : Status)
    (t : SparseFactorization α) : Prop :=
  e = .outOfMemory ∧ t.setup = s.setup ∧ t.workspace.Ready m ∧ t.active.colMax.size = m ∧
    Distinct m stages ∧ t.factors = Factors.ofStages m stages

/-- The same, with more stages completed before. -/
def Exhausted (s : SparseFactorization α) (m : Nat) (stages : List (Stage α)) (e : Status)
    (t : SparseFactorization α) : Prop := ∃ more, Stuck s m (stages ++ more) e t

theorem Stuck.exhausted_of_prefix {e : Status} {between : List (Stage α)}
    (h : Stuck s m between e t) (low : stages <+: between) : Exhausted s m stages e t := by
  obtain ⟨more, rfl⟩ := low
  exact ⟨more, h⟩

theorem Stuck.of_setup {e : Status} {u : SparseFactorization α} (h : Stuck t m stages e u)
    (setup : t.setup = s.setup) : Stuck s m stages e u :=
  ⟨h.1, h.2.1.trans setup, h.2.2⟩

namespace Underway

theorem entryCount_le (h : Underway s m stages v) : entryCount m v.cols ≤ s.capacity.files := by
  have total := h.active.cols.total_le
  rwa [← entryCount_eq_sum] at total

theorem col_length_le (h : Underway s m stages v) {j : Nat} (hj : j < m) :
    (v.cols j).length ≤ addressableWords := by
  have whole := length_le_entryCount v.cols hj
  have total := h.entryCount_le
  have words := h.addressable
  omega

theorem row_length_le (h : Underway s m stages v) {i : Nat} (hi : i < m) :
    (v.rows i).length ≤ addressableWords := by
  have whole := length_le_entryCount v.rows hi
  have total := h.active.rows.total_le
  rw [← entryCount_eq_sum] at total
  have words := h.addressable
  omega

theorem value?_eq (h : Underway s m stages v) {i j : Nat} {x : α} (hj : j < m)
    (member : (i, x) ∈ v.cols j) : s.active.value? i j = .ok (some x) :=
  h.active.value?_eq hj (h.consistent.distinctCols j hj) member

theorem closed_factors {st : Stage α}
    (factors : t.factors = (Factors.ofStages m stages).opened st.lower st.upper)
    (freshRow : st.row ∉ stages.map Stage.row) (freshCol : st.col ∉ stages.map Stage.col) :
    (t.closed st.row st.col st.pivot).factors = Factors.ofStages m (stages ++ [st]) := by
  change t.factors.closeStage _ _ _ = _
  rw [factors, Factors.closeStage_opened st freshRow freshCol]

theorem close (h : Underway s m stages v) {st : Stage α} (hi : st.row < m) (hj : st.col < m)
    (freshRow : st.row ∉ stages.map Stage.row) (freshCol : st.col ∉ stages.map Stage.col)
    (consistent : w.Consistent m (stages.map Stage.row ++ [st.row])
      (stages.map Stage.col ++ [st.col]))
    (setup : t.setup = s.setup)
    (factors : t.factors = (Factors.ofStages m stages).opened st.lower st.upper)
    (active : t.active.Shows m s.capacity.files w)
    (lower : s.factors.lower.count + st.lower.length ≤ s.capacity.lower)
    (upper : s.factors.upper.count + st.upper.length ≤ s.capacity.upper) :
    Underway (t.closed st.row st.col st.pivot) m (stages ++ [st]) w where
  dimension := (dimension_of_setup setup).trans h.dimension
  factors := closed_factors factors freshRow freshCol
  active := by
    change t.active.Shows m t.capacity.files w
    rw [capacity_of_setup setup]
    exact active
  consistent := by simpa using consistent
  distinctRows := by
    rw [List.map_append]
    exact List.nodup_append.mpr ⟨h.distinctRows, List.nodup_singleton _, by
      rintro x hx y hy rfl
      exact freshRow (by simp_all)⟩
  distinctCols := by
    rw [List.map_append]
    exact List.nodup_append.mpr ⟨h.distinctCols, List.nodup_singleton _, by
      rintro x hx y hy rfl
      exact freshCol (by simp_all)⟩
  insideRows := by
    intro i member
    rw [List.map_append, List.mem_append] at member
    rcases member with member | member
    · exact h.insideRows i member
    · simp_all
  insideCols := by
    intro j member
    rw [List.map_append, List.mem_append] at member
    rcases member with member | member
    · exact h.insideCols j member
    · simp_all
  addressable := by
    change 2 * t.capacity.files ≤ addressableWords
    rw [capacity_of_setup setup]
    exact h.addressable
  contained := by
    have capacity : (t.closed st.row st.col st.pivot).capacity = s.capacity :=
      capacity_of_setup setup
    rw [h.factors] at lower upper
    constructor
    · rw [capacity, closed_factors factors freshRow freshCol, Factors.count_lower_concat]
      exact lower
    · rw [capacity, closed_factors factors freshRow freshCol, Factors.count_upper_concat]
      exact upper
    · rw [capacity]
      exact h.contained.lowerWords
    · rw [capacity]
      exact h.contained.upperWords

theorem of_setup (h : Underway s m stages v) (setup : t.setup = s.setup)
    (factors : t.factors = s.factors) (active : t.active = s.active) : Underway t m stages v where
  dimension := (dimension_of_setup setup).trans h.dimension
  factors := factors.trans h.factors
  active := by rw [active, capacity_of_setup setup]; exact h.active
  consistent := h.consistent
  distinctRows := h.distinctRows
  distinctCols := h.distinctCols
  insideRows := h.insideRows
  insideCols := h.insideCols
  addressable := by rw [capacity_of_setup setup]; exact h.addressable
  contained := h.contained.congr factors (capacity_of_setup setup)

theorem working (h : Underway s m stages v) (workspace : s.workspace.Ready m)
    (roomy : LineFile.Roomy s.options.spare m s.capacity.files) : Working s m stages v :=
  { h with workspace, roomy }

end Underway

namespace Working

theorem distinct (h : Working s m stages v) : Distinct m stages :=
  ⟨h.distinctRows, h.distinctCols, h.insideRows, h.insideCols⟩

theorem stuck (h : Working s m stages v) : Stuck s m stages .outOfMemory s :=
  ⟨rfl, rfl, h.workspace, (congrArg Array.size h.active.colMax).trans h.consistent.sized,
    h.distinct, h.factors⟩

theorem underway (h : Working s m stages v) : Underway s m stages v := { h with }

theorem entryCount_le (h : Working s m stages v) : entryCount m v.cols ≤ s.capacity.files :=
  h.underway.entryCount_le

theorem col_length_le (h : Working s m stages v) {j : Nat} (hj : j < m) :
    (v.cols j).length ≤ addressableWords := h.underway.col_length_le hj

theorem row_length_le (h : Working s m stages v) {i : Nat} (hi : i < m) :
    (v.rows i).length ≤ addressableWords := h.underway.row_length_le hi

theorem value?_eq (h : Working s m stages v) {i j : Nat} {x : α} (hj : j < m)
    (member : (i, x) ∈ v.cols j) : s.active.value? i j = .ok (some x) :=
  h.underway.value?_eq hj member

theorem checkLower {extra : Nat} (h : Working s m stages v) (few : extra ≤ addressableWords) :
    Ends (fun _ t => s = t ∧ s.factors.lower.count + extra ≤ s.capacity.lower) (Stuck s m stages)
      (checkLower extra s) := by
  rw [h.contained.checkLower_eq few]
  split
  · exact h.stuck
  · exact ⟨rfl, by omega⟩

theorem checkUpper {extra : Nat} (h : Working s m stages v) (few : extra ≤ addressableWords) :
    Ends (fun _ t => s = t ∧ s.factors.upper.count + extra ≤ s.capacity.upper) (Stuck s m stages)
      (checkUpper extra s) := by
  rw [h.contained.checkUpper_eq few]
  split
  · exact h.stuck
  · exact ⟨rfl, by omega⟩

theorem close (h : Working s m stages v) {st : Stage α} (hi : st.row < m) (hj : st.col < m)
    (freshRow : st.row ∉ stages.map Stage.row) (freshCol : st.col ∉ stages.map Stage.col)
    (consistent : w.Consistent m (stages.map Stage.row ++ [st.row])
      (stages.map Stage.col ++ [st.col]))
    (setup : t.setup = s.setup) (workspace : t.workspace.Ready m)
    (factors : t.factors = (Factors.ofStages m stages).opened st.lower st.upper)
    (active : t.active.Shows m s.capacity.files w)
    (lower : s.factors.lower.count + st.lower.length ≤ s.capacity.lower)
    (upper : s.factors.upper.count + st.upper.length ≤ s.capacity.upper) :
    Working (t.closed st.row st.col st.pivot) m (stages ++ [st]) w := by
  refine (h.underway.close hi hj freshRow freshCol consistent setup factors active lower
    upper).working workspace ?_
  change LineFile.Roomy t.options.spare m t.capacity.files
  rw [options_of_setup setup, capacity_of_setup setup]
  exact h.roomy

theorem of_setup (h : Working s m stages v) (setup : t.setup = s.setup)
    (workspace : t.workspace = s.workspace) (factors : t.factors = s.factors)
    (active : t.active = s.active) : Working t m stages v :=
  (h.underway.of_setup setup factors active).working (workspace ▸ h.workspace)
    (by rw [options_of_setup setup, capacity_of_setup setup]; exact h.roomy)

end Working

end SparseFactorization

end SimplexBasis
