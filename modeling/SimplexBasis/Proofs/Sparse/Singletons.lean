import SimplexBasis.Proofs.Sparse.Working
import SimplexBasis.Sparse.Singletons

/-!
# Singletons and what they leave

A singleton appends one stage to the factors and takes its row and column out of the active
submatrix. It moves the other entries of its line one after another, and the lines that are left
with one entry are what the cascade goes on with.
-/

set_option linter.unusedSectionVars false

namespace SimplexBasis.SparseFactorization

variable {α : Type} [Scalar α] {s t : SparseFactorization α} {m i j : Nat} {x : α}
  {stages : List (Stage α)} {v w : ActiveView α} {E : Status → SparseFactorization α → Prop}

/-- The columns of row `i`, besides `j`, of which one entry is left without the row. -/
def freshColumns (v : ActiveView α) (i j : Nat) : List Nat :=
  (((v.rows i).filter (· != j)).filter fun k => (v.cols k).length - 1 = 1).reverse

/-- The rows of column `j`, besides `i`, of which one entry is left without the column. -/
def freshRows (v : ActiveView α) (i j : Nat) : List Nat :=
  ((keys ((v.cols j).filter (·.1 != i))).filter fun k => (v.rows k).length - 1 = 1).reverse

/-! ### Column singletons -/

/-- Entries of row `i` moved to the open line of the upper factor: the columns `done` have lost the
row, and `stack` holds those of which one entry is left. -/
def MovedUpper (s : SparseFactorization α) (m : Nat) (stages : List (Stage α)) (v : ActiveView α)
    (i : Nat) (done stack : List Nat) (t : SparseFactorization α) : Prop :=
  ∃ a, t = { s with
    active := a
    factors := (Factors.ofStages m stages).opened []
      (done.map fun k => (k, valueAt (v.cols k) i)) } ∧
    a.Shows m s.capacity.files (v.removeColumns i done) ∧
    stack = (done.filter fun k => (v.cols k).length - 1 = 1).reverse

theorem MovedUpper.step {done stack : List Nat} {k : Nat} (moved : MovedUpper s m stages v i done stack t)
    (consistent : v.Consistent m (stages.map Stage.row) (stages.map Stage.col)) (hi : i < m)
    (nodup : (done ++ [k]).Nodup) (touched : k ∈ v.rows i) :
    Ends (MovedUpper s m stages v i (done ++ [k])) E (moveToUpper i stack k t) := by
  obtain ⟨a, rfl, shows, rfl⟩ := moved
  obtain ⟨nodupDone, -, apart⟩ := List.nodup_append.mp nodup
  have fresh : k ∉ done := fun h => apart k h k List.mem_cons_self rfl
  have hk := (consistent.rowRange i hi k touched).1
  obtain ⟨y, hy⟩ := consistent.exists_value hi touched
  have same : (v.removeColumns i done).cols k = v.cols k := by
    simp [ActiveView.cols_removeColumns nodupDone, fresh]
  have value : valueAt (v.cols k) i = y := valueAt_of_mem (consistent.distinctCols k hk) hy
  obtain ⟨b, removed, shows'⟩ := shows.removeFromColumn hk (i := i) (x := y)
    (by simpa using consistent.sized) (by rw [same]; exact consistent.distinctCols k hk)
    (by rw [same]; exact hy) (by rw [same]; have := consistent.col_length_le hk; omega)
  rw [same] at removed
  unfold moveToUpper
  rw [bind_of_ok (onActive_run removed)]
  simp only
  rw [bind_of_ok (updateFactors_run _)]
  refine ⟨b, ?_, ?_, ?_⟩
  · simp [Factors.pushUpper_opened, value]
  · rw [ActiveView.removeColumns_concat, same, value]
    exact shows'
  · simp [List.filter_append, List.filter_cons]
    split <;> rfl

/-- The areas of the factors have no room for the entries of a stage. -/
def Lacking (s : SparseFactorization α) (st : Stage α) : Prop :=
  s.capacity.lower < s.factors.lower.count + st.lower.length ∨
    s.capacity.upper < s.factors.upper.count + st.upper.length

theorem Underway.pivotColumnSingleton (h : Underway s m stages v) (hj : j < m)
    (only : v.cols j = [(i, x)]) :
    Ends (fun stack t => Underway t m (stages ++ [v.stageAt i j x]) (v.columnPivot i j) ∧
        t.setup = s.setup ∧ t.workspace = s.workspace ∧ stack = freshColumns v i j)
      (fun e t => e = .outOfMemory ∧ t = s ∧ s.Lacking (v.stageAt i j x))
      (pivotColumnSingleton i j s) := by
  have active := h.active
  have consistent := h.consistent
  have keyed : i ∈ keys (v.cols j) := by simp [only]
  obtain ⟨hi, freshRow⟩ := consistent.colRange j hj i keyed
  have member : j ∈ v.rows i := (consistent.agree i hi j hj).mpr keyed
  have freshCol := (consistent.rowRange i hi j member).2
  have distinct := (consistent.distinctRows i hi).filter (· != j)
  have others := length_filter_ne (consistent.distinctRows i hi) member
  have bound := h.row_length_le hi
  have length : (v.stageAt i j x).upper.length = (v.rows i).length - 1 := by
    rw [ActiveView.stageAt, List.length_map]
    omega
  unfold SparseFactorization.pivotColumnSingleton
  simp only [get_bind, active.cols.line_eq hj, only, lift_ok_bind, beq_self_eq_true,
    require_true_bind, active.rows.line_eq hi]
  rw [Word.sub_of_le (by omega)]
  have few : (v.rows i).length - 1 ≤ addressableWords := by omega
  have checked := h.contained.checkUpper_eq few
  rw [← length] at checked ⊢
  split at checked
  · rename_i full
    rw [bind_of_error checked]
    exact ⟨rfl, rfl, .inr full⟩
  rename_i enough
  rw [bind_of_ok checked]
  have lower : s.factors.lower.count + (v.stageAt i j x).lower.length ≤ s.capacity.lower := by
    simpa [ActiveView.stageAt, only] using h.contained.lower
  refine (Ends.foldlM (MovedUpper s m stages v i) ?_ ?_).bind ?_
  · exact ⟨s.active, by rw [List.map_nil, Factors.opened_nil, ← h.factors], active, rfl⟩
  · intro done k rest stack _ split moved
    rw [split] at distinct
    refine moved.step consistent hi (distinct.sublist (by simp)) ?_
    exact (List.mem_filter.mp (split ▸ by simp : k ∈ (v.rows i).filter (· != j))).1
  · rintro stack _ ⟨a, rfl, shows, rfl⟩
    obtain ⟨b, dropped, shows'⟩ := shows.drop hi hj
    rw [bind_of_ok (onActive_run (by exact dropped)),
      bind_of_ok (onActive_run (by exact Active.recount_run 1 0)), bind_of_ok (closeStage_run i j x)]
    exact ⟨@Underway.close _ _ _ _ _ _ _ _ h (v.stageAt i j x) hi hj freshRow freshCol
      (consistent.columnPivot hj only) rfl (by simp [ActiveView.stageAt, only])
      (shows'.recount 1 0) lower (by omega), rfl, rfl, rfl⟩

theorem Working.pivotColumnSingleton (h : Working s m stages v) (hj : j < m)
    (only : v.cols j = [(i, x)]) :
    Ends (fun stack t => Working t m (stages ++ [v.stageAt i j x]) (v.columnPivot i j) ∧
        t.setup = s.setup ∧ stack = freshColumns v i j)
      (Stuck s m stages) (pivotColumnSingleton i j s) := by
  refine (h.underway.pivotColumnSingleton hj only).mono ?_ ?_
  · rintro _ t ⟨underway, setup, workspace, rfl⟩
    refine ⟨underway.working (workspace ▸ h.workspace) ?_, setup, rfl⟩
    rw [options_of_setup setup, capacity_of_setup setup]
    exact h.roomy
  · rintro _ _ ⟨rfl, rfl, -⟩
    exact h.stuck

/-! ### Row singletons -/

/-- Entries of column `j`, divided by the pivot, moved to the open line of the lower factor: their
rows have lost the column, and `stack` holds those of which one entry is left. -/
def MovedLower (s : SparseFactorization α) (m : Nat) (stages : List (Stage α)) (v : ActiveView α)
    (j : Nat) (x : α) (done : List (Nat × α)) (stack : List Nat) (t : SparseFactorization α) : Prop :=
  ∃ a, t = { s with
    active := a
    factors := (Factors.ofStages m stages).opened (done.map fun e => (e.1, e.2 / x)) [] } ∧
    a.Shows m s.capacity.files (v.removeRows j (keys done)) ∧
    stack = ((keys done).filter fun k => (v.rows k).length - 1 = 1).reverse

theorem MovedLower.step {done : List (Nat × α)} {stack : List Nat} {e : Nat × α}
    (moved : MovedLower s m stages v j x done stack t)
    (consistent : v.Consistent m (stages.map Stage.row) (stages.map Stage.col)) (hj : j < m)
    (nodup : (keys done ++ [e.1]).Nodup) (member : e ∈ v.cols j) :
    Ends (MovedLower s m stages v j x (done ++ [e])) E (moveToLower j x stack e t) := by
  obtain ⟨k, y⟩ := e
  obtain ⟨a, rfl, shows, rfl⟩ := moved
  obtain ⟨nodupDone, -, apart⟩ := List.nodup_append.mp nodup
  have fresh : k ∉ keys done := fun h => apart k h k List.mem_cons_self rfl
  have keyed : k ∈ keys (v.cols j) := List.mem_map_of_mem (f := Prod.fst) member
  have hk := (consistent.colRange j hj k keyed).1
  have touched : j ∈ v.rows k := (consistent.agree k hk j hj).mpr keyed
  have same : (v.removeRows j (keys done)).rows k = v.rows k := by
    rw [ActiveView.rows_removeRows nodupDone]
    exact if_neg fresh
  obtain ⟨b, removed, shows'⟩ := shows.removeFromRow hk (j := j)
    (by rw [same]; exact touched) (by rw [same]; have := consistent.row_length_le hk; omega)
  rw [same] at removed
  simp only [moveToLower]
  rw [bind_of_ok (updateFactors_run _), bind_of_ok (onActive_run (by exact removed))]
  refine ⟨b, ?_, ?_, ?_⟩
  · simp [Factors.pushLower_opened]
  · have split : keys (done ++ [(k, y)]) = keys done ++ [k] := by simp
    rw [split, ActiveView.removeRows_concat]
    exact shows'
  · simp [List.filter_append, List.filter_cons]
    split <;> rfl

theorem Underway.pivotRowSingleton (h : Underway s m stages v) (hi : i < m)
    (only : v.rows i = [j]) (pivot : (i, x) ∈ v.cols j) :
    Ends (fun stack t => Underway t m (stages ++ [v.stageAt i j x]) (v.rowPivot i j) ∧
        t.setup = s.setup ∧ t.workspace = s.workspace ∧ stack = freshRows v i j)
      (fun e t => e = .outOfMemory ∧ t = s ∧ s.Lacking (v.stageAt i j x))
      (pivotRowSingleton i j s) := by
  have active := h.active
  have consistent := h.consistent
  obtain ⟨hj, freshCol⟩ := consistent.rowRange i hi j (by simp [only])
  have keyed : i ∈ keys (v.cols j) := List.mem_map_of_mem pivot
  have freshRow := (consistent.colRange j hj i keyed).2
  have distinct := nodup_keys_filter (consistent.distinctCols j hj) (·.1 != i)
  have others := length_filter_key_ne (consistent.distinctCols j hj) keyed
  have bound := h.col_length_le hj
  have length : (v.stageAt i j x).lower.length = (v.cols j).length - 1 := by
    rw [ActiveView.stageAt, List.length_map]
    omega
  unfold SparseFactorization.pivotRowSingleton
  simp only [get_bind, active.rows.length_eq hi, only, List.length_singleton, lift_ok_bind,
    beq_self_eq_true, require_true_bind, h.value?_eq hj pivot, active.cols.line_eq hj]
  rw [Word.sub_of_le (by omega)]
  have few : (v.cols j).length - 1 ≤ addressableWords := by omega
  have checked := h.contained.checkLower_eq few
  rw [← length] at checked ⊢
  split at checked
  · rename_i full
    rw [bind_of_error checked]
    exact ⟨rfl, rfl, .inl full⟩
  rename_i enough
  rw [bind_of_ok checked]
  have upper : s.factors.upper.count + (v.stageAt i j x).upper.length ≤ s.capacity.upper := by
    simpa [ActiveView.stageAt, only] using h.contained.upper
  refine (Ends.foldlM (MovedLower s m stages v j x) ?_ ?_).bind ?_
  · exact ⟨s.active, by rw [List.map_nil, Factors.opened_nil, ← h.factors], active, rfl⟩
  · intro done e rest stack _ split moved
    rw [split] at distinct
    refine moved.step consistent hj (distinct.sublist (by simp)) ?_
    exact (List.mem_filter.mp (split ▸ by simp : e ∈ (v.cols j).filter (·.1 != i))).1
  · rintro stack _ ⟨a, rfl, shows, rfl⟩
    obtain ⟨b, dropped, shows'⟩ := shows.drop hi hj
    rw [bind_of_ok (updateCounters_run _), bind_of_ok (onActive_run (by exact dropped)),
      bind_of_ok (onActive_run (by exact Active.recount_run 1 0)), bind_of_ok (closeStage_run i j x)]
    exact ⟨@Underway.close _ _ _ _ _ _ _ _ h (v.stageAt i j x) hi hj freshRow freshCol
      (consistent.rowPivot hi only) rfl (by simp [ActiveView.stageAt, only])
      (shows'.recount 1 0) (by omega) upper, rfl, rfl, rfl⟩

theorem Working.pivotRowSingleton (h : Working s m stages v) (hi : i < m)
    (only : v.rows i = [j]) (pivot : (i, x) ∈ v.cols j) :
    Ends (fun stack t => Working t m (stages ++ [v.stageAt i j x]) (v.rowPivot i j) ∧
        t.setup = s.setup ∧ stack = freshRows v i j)
      (Stuck s m stages) (pivotRowSingleton i j s) := by
  refine (h.underway.pivotRowSingleton hi only pivot).mono ?_ ?_
  · rintro _ t ⟨underway, setup, workspace, rfl⟩
    refine ⟨underway.working (workspace ▸ h.workspace) ?_, setup, rfl⟩
    rw [options_of_setup setup, capacity_of_setup setup]
    exact h.roomy
  · rintro _ _ ⟨rfl, rfl, -⟩
    exact h.stuck

/-! ### Cascades -/

theorem isPivoted_eq (xs : List Nat) (hi : i < m) :
    isPivoted ((Array.range m).map fun k => xs.idxOf? k) i = .ok (decide (i ∈ xs)) := by
  have read : entry ((Array.range m).map fun k => xs.idxOf? k) i = .ok (xs.idxOf? i) := by
    rw [entry_eq_ok_iff]
    simp [hi]
  unfold isPivoted
  rw [read, checked_ok_bind]
  refine congrArg Except.ok ?_
  rw [Bool.eq_iff_iff, isSome_idxOf?, decide_eq_true_iff]

theorem mem_of_mem_freshColumns {k : Nat} (h : k ∈ freshColumns v i j) : k ∈ v.rows i :=
  (List.mem_filter.mp (List.mem_filter.mp (List.mem_reverse.mp h)).1).1

theorem mem_of_mem_freshRows {k : Nat} (h : k ∈ freshRows v i j) : k ∈ keys (v.cols j) :=
  (mem_keys_filter_ne.mp (List.mem_filter.mp (List.mem_reverse.mp h)).1).2

section Fresh

variable {rowsDone colsDone : List Nat} (h : v.Consistent m rowsDone colsDone)

include h

theorem freshColumns_inside (hj : j < m) (only : v.cols j = [(i, x)]) :
    ∀ k ∈ freshColumns v i j, k < m := by
  intro k fresh
  have hi := (h.colRange j hj i (by simp [only])).1
  exact (h.rowRange i hi k (mem_of_mem_freshColumns fresh)).1

theorem freshRows_inside (hi : i < m) (only : v.rows i = [j]) : ∀ k ∈ freshRows v i j, k < m := by
  intro k fresh
  have hj := (h.rowRange i hi j (by simp [only])).1
  exact (h.colRange j hj k (mem_of_mem_freshRows fresh)).1

/-- A column singleton takes out more entries than it puts columns on the stack. -/
theorem length_freshColumns_lt (hj : j < m) (only : v.cols j = [(i, x)]) :
    (freshColumns v i j).length + entryCount m (v.columnPivot i j).cols < entryCount m v.cols := by
  have removed := h.entryCount_columnPivot hj only
  have short : (freshColumns v i j).length ≤ ((v.rows i).filter (· != j)).length := by
    rw [freshColumns, List.length_reverse]
    exact List.length_filter_le _ _
  omega

theorem length_freshRows_lt (hi : i < m) (only : v.rows i = [j]) :
    (freshRows v i j).length + entryCount m (v.rowPivot i j).rows < entryCount m v.rows := by
  have removed := h.entryCount_rowPivot hi only
  have short : (freshRows v i j).length ≤ (keys ((v.cols j).filter (·.1 != i))).length := by
    rw [freshRows, List.length_reverse]
    exact List.length_filter_le _ _
  omega

end Fresh

variable {fuel : Nat}

theorem Underway.columnCascade_cons (h : Underway s m stages v) (hj : j < m) (stack : List Nat) :
    columnCascade (fuel + 1) (j :: stack) s =
      (if j ∈ stages.map Stage.col then columnCascade fuel stack
      else match v.cols j with
        | [(i, x)] =>
          if Scalar.abs x < s.absoluteTolerance then columnCascade fuel stack
          else do
            let fresh ← SparseFactorization.pivotColumnSingleton i j
            countSingleton
            columnCascade fuel (fresh ++ stack)
        | _ => columnCascade fuel stack : Action (SparseFactorization α) Unit) s := by
  have pivoted : isPivoted s.factors.stageOfCol j = .ok (decide (j ∈ stages.map Stage.col)) := by
    rw [h.factors]
    exact isPivoted_eq _ hj
  rw [columnCascade, get_bind, pivoted, lift_ok_bind]
  by_cases done : j ∈ stages.map Stage.col
  · rw [if_pos done, if_pos (decide_eq_true done)]
  · rewrite [if_neg done, if_neg (by simpa using done), h.active.cols.line_eq hj, lift_ok_bind]
    rfl

theorem Underway.rowCascade_cons (h : Underway s m stages v) (hi : i < m) (stack : List Nat) :
    rowCascade (fuel + 1) (i :: stack) s =
      (if i ∈ stages.map Stage.row then rowCascade fuel stack
      else match v.rows i with
        | [j] =>
          if Scalar.abs (valueAt (v.cols j) i) < s.absoluteTolerance then rowCascade fuel stack
          else do
            let fresh ← SparseFactorization.pivotRowSingleton i j
            countSingleton
            rowCascade fuel (fresh ++ stack)
        | _ => rowCascade fuel stack : Action (SparseFactorization α) Unit) s := by
  have pivoted : isPivoted s.factors.stageOfRow i = .ok (decide (i ∈ stages.map Stage.row)) := by
    rw [h.factors]
    exact isPivoted_eq _ hi
  rw [rowCascade, get_bind, pivoted, lift_ok_bind]
  by_cases done : i ∈ stages.map Stage.row
  · rw [if_pos done, if_pos (decide_eq_true done)]
  · rw [if_neg done, if_neg (by simpa using done), h.active.rows.line_eq hi, lift_ok_bind]
    rcases only : v.rows i with _ | ⟨j, _ | ⟨_, _⟩⟩
    · rfl
    · obtain ⟨x, member⟩ := h.consistent.exists_value hi (j := j) (by simp [only])
      have hj := (h.consistent.rowRange i hi j (by simp [only])).1
      dsimp only
      rw [h.value?_eq hj member, lift_ok_bind, Option.getD_some,
        valueAt_of_mem (h.consistent.distinctCols j hj) member]
    · rfl

end SimplexBasis.SparseFactorization
