import SimplexBasis.Proofs.Sparse.Course

/-!
# Cascades

What a cascade of singletons leaves. The pivots of a column cascade touch no other row and those of
a row cascade no other column, so the entries that are left stand where they stood, and whichever
order the work is done in, the stack holds every singleton that is large enough until it is empty.
-/

set_option linter.unusedSectionVars false

namespace SimplexBasis

variable {α : Type} [Scalar α] {m i j : Nat} {x tolerance : α} {u v w : ActiveView α}
  {stages more rest : List (Stage α)} {rowsDone colsDone : List Nat}

/-! ### Chains of singletons -/

/-- The line of a singleton that has no other entry. -/
inductive Single where
  | column
  | row

/-- Singletons of the given kinds, taken one after another. -/
inductive Singly (kinds : Single → Prop) (m : Nat) (v : ActiveView α) :
    List (Stage α) → ActiveView α → Prop
  | start : Singly kinds m v [] v
  | column {before : List (Stage α)} {mid : ActiveView α} (chain : Singly kinds m v before mid)
      (kind : kinds .column) {i j : Nat} {x : α} (inside : j < m) (only : mid.cols j = [(i, x)]) :
      Singly kinds m v (before ++ [mid.stageAt i j x]) (mid.columnPivot i j)
  | row {before : List (Stage α)} {mid : ActiveView α} (chain : Singly kinds m v before mid)
      (kind : kinds .row) {i j : Nat} {x : α} (inside : i < m) (only : mid.rows i = [j])
      (member : (i, x) ∈ mid.cols j) :
      Singly kinds m v (before ++ [mid.stageAt i j x]) (mid.rowPivot i j)

namespace ActiveView

/-- Without the rows and columns of the given stages, nothing has changed. -/
def LeftBy (v w : ActiveView α) (m : Nat) (more : List (Stage α)) : Prop :=
  ∀ j < m, ∀ i x, (i, x) ∈ w.cols j ↔
    i ∉ more.map Stage.row ∧ j ∉ more.map Stage.col ∧ (i, x) ∈ v.cols j

/-- The one entry of column `j` is not too small. -/
def DueColumn (v : ActiveView α) (tolerance : α) (j : Nat) : Prop :=
  ∃ i x, v.cols j = [(i, x)] ∧ ¬Scalar.abs x < tolerance

/-- The one entry of row `i` is not too small. -/
def DueRow (v : ActiveView α) (tolerance : α) (i : Nat) : Prop :=
  ∃ j, v.rows i = [j] ∧ ¬Scalar.abs (valueAt (v.cols j) i) < tolerance

namespace Consistent

variable (h : v.Consistent m rowsDone colsDone)

include h

/-- A column singleton leaves a column due that was due before or has just lost its second entry. -/
theorem due_columnPivot {k : Nat} (hj : j < m) (only : v.cols j = [(i, x)]) (hk : k < m)
    (due : (v.columnPivot i j).DueColumn tolerance k) :
    k ∈ SparseFactorization.freshColumns v i j ∨ k ≠ j ∧ v.DueColumn tolerance k := by
  obtain ⟨l, y, single, large⟩ := due
  have hi := (h.colRange j hj i (by simp [only])).1
  rw [h.cols_columnPivot hi hk] at single
  split at single
  · cases single
  rename_i other
  by_cases touched : i ∈ keys (v.cols k)
  · have length := length_withoutKey touched
    rw [single, List.length_singleton] at length
    refine .inl (List.mem_reverse.mpr (List.mem_filter.mpr ⟨List.mem_filter.mpr ⟨?_, ?_⟩, ?_⟩))
    · exact (h.agree i hi k hk).mpr touched
    · simpa using other
    · rw [decide_eq_true_iff]
      omega
  · rw [withoutKey_of_not_mem touched] at single
    exact .inr ⟨other, l, y, single, large⟩

/-- A row singleton leaves a row due that was due before or has just lost its second entry. -/
theorem due_rowPivot {k : Nat} (hi : i < m) (only : v.rows i = [j]) (hk : k < m)
    (due : (v.rowPivot i j).DueRow tolerance k) :
    k ∈ SparseFactorization.freshRows v i j ∨ k ≠ i ∧ v.DueRow tolerance k := by
  obtain ⟨l, single, large⟩ := due
  have hj := (h.rowRange i hi j (by simp [only])).1
  rw [h.rows_rowPivot hj hk] at single
  split at single
  · cases single
  rename_i other
  by_cases touched : j ∈ v.rows k
  · have length := length_without touched
    rw [single, List.length_singleton] at length
    refine .inl (List.mem_reverse.mpr (List.mem_filter.mpr ⟨mem_keys_filter_ne.mpr ⟨other, ?_⟩, ?_⟩))
    · exact (h.agree k hk j hj).mp touched
    · rw [decide_eq_true_iff]
      omega
  · rw [without_of_not_mem touched] at single
    have apart : l ≠ j := by
      rintro rfl
      exact touched (by simp [single])
    rw [cols_rowPivot, Function.update_of_ne apart] at large
    exact .inr ⟨other, l, single, large⟩

theorem free_of_dueColumn (hj : j < m) (due : v.DueColumn tolerance j) : j ∉ colsDone := by
  obtain ⟨i, x, single, -⟩ := due
  intro done
  simp [h.col_done hj done] at single

theorem free_of_dueRow (hi : i < m) (due : v.DueRow tolerance i) : i ∉ rowsDone := by
  obtain ⟨j, single, -⟩ := due
  intro done
  simp [h.row_done hi done] at single

end Consistent

end ActiveView

namespace Singly

variable {kinds kinds' : Single → Prop}

theorem ofColumn (kind : kinds .column) (inside : j < m) (only : v.cols j = [(i, x)]) :
    Singly kinds m v [v.stageAt i j x] (v.columnPivot i j) := start.column kind inside only

theorem ofRow (kind : kinds .row) (inside : i < m) (only : v.rows i = [j])
    (member : (i, x) ∈ v.cols j) : Singly kinds m v [v.stageAt i j x] (v.rowPivot i j) :=
  start.row kind inside only member

variable (chain : Singly kinds m v more w)

include chain

theorem mono (weaker : ∀ kind, kinds kind → kinds' kind) : Singly kinds' m v more w := by
  induction chain with
  | start => exact .start
  | column _ kind inside only ih => exact ih.column (weaker _ kind) inside only
  | row _ kind inside only member ih => exact ih.row (weaker _ kind) inside only member

theorem trans (second : Singly kinds m w rest u) : Singly kinds m v (more ++ rest) u := by
  induction second with
  | start => simpa using chain
  | column _ kind inside only ih =>
    rw [← List.append_assoc]
    exact ih.column kind inside only
  | row _ kind inside only member ih =>
    rw [← List.append_assoc]
    exact ih.row kind inside only member

theorem lower_eq_nil (columns : ¬kinds .row) : ∀ st ∈ more, st.lower = [] := by
  induction chain with
  | start => simp
  | column _ _ _ only ih =>
    intro st member
    rcases List.mem_append.mp member with earlier | last
    · exact ih st earlier
    · rw [List.mem_singleton.mp last]
      simp [ActiveView.stageAt, only]
  | row _ kind => exact absurd kind columns

theorem rows_eq (columns : ¬kinds .row) (free : i ∉ more.map Stage.row) : w.rows i = v.rows i := by
  induction chain with
  | start => rfl
  | @column before _ _ _ k _ _ _ _ ih =>
    obtain ⟨free, other⟩ : i ∉ before.map Stage.row ∧ i ≠ k := by
      simpa [ActiveView.stageAt] using free
    rw [ActiveView.Consistent.rows_columnPivot, Function.update_of_ne other]
    exact ih free
  | row _ kind => exact absurd kind columns

theorem cols_eq (rows : ¬kinds .column) (free : j ∉ more.map Stage.col) : w.cols j = v.cols j := by
  induction chain with
  | start => rfl
  | column _ kind => exact absurd kind rows
  | @row before _ _ _ _ l _ _ _ _ ih =>
    obtain ⟨free, other⟩ : j ∉ before.map Stage.col ∧ j ≠ l := by
      simpa [ActiveView.stageAt] using free
    rw [ActiveView.Consistent.cols_rowPivot, Function.update_of_ne other]
    exact ih free

theorem aside (columns : ¬kinds .row) (member : i ∈ w.rowLists (m + 1)) :
    i ∈ v.rowLists (m + 1) := by
  induction chain with
  | start => exact member
  | @column _ mid _ _ k l _ _ _ ih =>
    have lists : (mid.columnPivot k l).rowLists = fun n => (mid.rowLists n).erase k := by
      simp [ActiveView.columnPivot, ActiveView.recount, ActiveView.drop]
    rw [lists] at member
    exact ih (List.mem_of_mem_erase member)
  | row _ kind => exact absurd kind columns

variable (h : v.Consistent m rowsDone colsDone)

include h

theorem consistent : w.Consistent m (rowsDone ++ more.map Stage.row)
    (colsDone ++ more.map Stage.col) := by
  induction chain with
  | start => simpa using h
  | column _ _ inside only ih => simpa [ActiveView.stageAt] using ih.columnPivot inside only
  | row _ _ inside only _ ih => simpa [ActiveView.stageAt] using ih.rowPivot inside only

theorem left : v.LeftBy w m more := by
  induction chain with
  | start => simp [ActiveView.LeftBy]
  | @column before mid chain _ r c y inside only ih =>
    intro j hj i x
    have consistent := chain.consistent h
    have hr := (consistent.colRange c inside r (by simp [only])).1
    rw [consistent.cols_columnPivot hr hj]
    by_cases same : j = c
    · simp [same, ActiveView.stageAt]
    · rw [if_neg same, mem_withoutKey (consistent.distinctCols j hj), ih j hj i x]
      simp only [ActiveView.stageAt, List.map_append, List.map_cons, List.map_nil, List.mem_append,
        List.mem_singleton]
      tauto
  | @row before mid chain _ r c y inside only member ih =>
    intro j hj i x
    have consistent := chain.consistent h
    rw [ActiveView.Consistent.cols_rowPivot, Function.update_apply]
    by_cases same : j = c
    · simp [same, ActiveView.stageAt]
    · -- The other columns have no entry in the pivot row.
      have apart : (i, x) ∈ mid.cols j → i ≠ r := by
        rintro entry rfl
        have inRow := (consistent.agree i inside j hj).mpr (List.mem_map_of_mem (f := Prod.fst) entry)
        rw [only, List.mem_singleton] at inRow
        exact same inRow
      rw [if_neg same]
      simp only [ActiveView.stageAt, List.map_append, List.map_cons, List.map_nil, List.mem_append,
        List.mem_singleton]
      have before := ih j hj i x
      tauto

/-- Of a column that has no pivot, the entries in other rows are left, in some order. -/
theorem cols_perm (hj : j < m) (free : j ∉ more.map Stage.col) :
    (w.cols j).Perm ((v.cols j).filter fun e => e.1 ∉ more.map Stage.row) := by
  have now := ((chain.consistent h).distinctCols j hj).of_map
  have first := ((h.distinctCols j hj).of_map).filter fun e => e.1 ∉ more.map Stage.row
  refine (List.perm_ext_iff_of_nodup now first).mpr fun ⟨i, x⟩ => ?_
  rw [chain.left h j hj i x, List.mem_filter, decide_eq_true_iff]
  tauto

theorem length_upper (columns : ¬kinds .row) (hj : j < m) (only : w.cols j = [(i, x)]) :
    (w.stageAt i j x).upper.length = (v.rows i).length - 1 := by
  have consistent := chain.consistent h
  have keyed : i ∈ keys (w.cols j) := by simp [only]
  obtain ⟨hi, free⟩ := consistent.colRange j hj i keyed
  have others := length_filter_ne (consistent.distinctRows i hi)
    ((consistent.agree i hi j hj).mpr keyed)
  have same : w.rows i = v.rows i :=
    chain.rows_eq columns fun taken => free (List.mem_append_right _ taken)
  rw [ActiveView.stageAt, List.length_map, ← same]
  omega

/-- Singletons are pivots like others, whatever is dropped elsewhere. -/
theorem pivoting (tolerance : α) {front : List (Stage α)} (rows : front.map Stage.row = rowsDone)
    (cols : front.map Stage.col = colsDone) : Pivoting tolerance m front v more w := by
  induction chain with
  | start => exact .start
  | column chain _ inside only ih =>
    have consistent := chain.consistent h
    rw [← ActiveView.pivotAt_of_col only]
    exact ih.pivot (by simpa [rows, cols] using consistent) inside (by simp [only])
  | @row _ _ chain _ r c _ inside only member ih =>
    have consistent := chain.consistent h
    have hc := (consistent.rowRange r inside c (by simp [only])).1
    rw [← ActiveView.pivotAt_of_row only member]
    exact ih.pivot (by simpa [rows, cols] using consistent) hc member

theorem count : entryCount m w.cols +
    (more.map fun st => st.lower.length + st.upper.length + 1).sum = entryCount m v.cols := by
  induction chain with
  | start => simp
  | @column before mid chain _ r c y inside only ih =>
    have removed := (chain.consistent h).entryCount_columnPivot inside only
    simp only [List.map_append, List.map_cons, List.map_nil, List.sum_append, List.sum_singleton]
    have lower : (mid.stageAt r c y).lower.length = 0 := by simp [ActiveView.stageAt, only]
    have upper : (mid.stageAt r c y).upper.length = ((mid.rows r).filter (· != c)).length := by
      simp [ActiveView.stageAt]
    omega
  | @row before mid chain _ r c y inside only member ih =>
    have consistent := chain.consistent h
    have hc := (consistent.rowRange r inside c (by simp [only])).1
    have cleared := entryCount_update mid.cols [] hc
    rw [← ActiveView.Consistent.cols_rowPivot mid r c, List.length_nil] at cleared
    have keyed : r ∈ keys (mid.cols c) := List.mem_map_of_mem member
    have others := length_filter_key_ne (consistent.distinctCols c hc) keyed
    simp only [List.map_append, List.map_cons, List.map_nil, List.sum_append, List.sum_singleton]
    have lower : (mid.stageAt r c y).lower.length = ((mid.cols c).filter (·.1 != r)).length := by
      simp [ActiveView.stageAt]
    have upper : (mid.stageAt r c y).upper.length = 0 := by simp [ActiveView.stageAt, only]
    omega

end Singly

theorem Singly.triangular {kinds : Single → Prop} (chain : Singly kinds m v more w)
    (h : v.Consistent m [] []) : Triangular m more := by
  have chain' : Pivoting (0 : α) m [] v more w := chain.pivoting h 0 rfl rfl
  simpa using chain'.triangular .nil

/-! ### Runs of cascades -/

namespace SparseFactorization

variable {s t r : SparseFactorization α} {fuel : Nat} {stack : List Nat}
  {kinds kinds' : Single → Prop} {st : Stage α}

/-- The state after singletons, none of which was too small. -/
structure Shed (kinds : Single → Prop) (s : SparseFactorization α) (m : Nat)
    (stages : List (Stage α)) (v : ActiveView α) (more : List (Stage α)) (w : ActiveView α)
    (t : SparseFactorization α) : Prop where
  underway : Underway t m (stages ++ more) w
  chain : Singly kinds m v more w
  large : ∀ st ∈ more, ¬Scalar.abs st.pivot < s.absoluteTolerance
  setup : t.setup = s.setup
  workspace : t.workspace = s.workspace
  tallies : t.tallies = { s.tallies with singletons := s.tallies.singletons + more.length }

/-- A singleton for which there was no room. -/
def Choked (kinds : Single → Prop) (s : SparseFactorization α) (m : Nat)
    (stages : List (Stage α)) (v : ActiveView α) (e : Status) (t : SparseFactorization α) : Prop :=
  e = .outOfMemory ∧ ∃ more w i j x, Shed kinds s m stages v more w t ∧ j < m ∧
    (i, x) ∈ w.cols j ∧ t.Lacking (w.stageAt i j x)

theorem absoluteTolerance_of_setup (h : t.setup = s.setup) :
    t.absoluteTolerance = s.absoluteTolerance :=
  congrArg (·.absoluteTolerance) h

namespace Shed

theorem refl (h : Underway s m stages v) : Shed kinds s m stages v [] v s where
  underway := by simpa using h
  chain := .start
  large := by simp
  setup := rfl
  workspace := rfl
  tallies := rfl

theorem single (chain : Singly kinds m v [st] w)
    (large : ¬Scalar.abs st.pivot < s.absoluteTolerance) (underway : Underway t m (stages ++ [st]) w)
    (setup : t.setup = s.setup) (workspace : t.workspace = s.workspace)
    (tallies : t.tallies = s.tallies) : Shed kinds s m stages v [st] w
      { t with counters := { t.counters with singletons := t.counters.singletons + 1 } } where
  underway := underway.of_setup rfl rfl rfl
  chain := chain
  large := by simpa using large
  setup := setup
  workspace := workspace
  tallies := congrArg (fun c : Tallies => { c with singletons := c.singletons + 1 }) tallies

theorem mono (h : Shed kinds s m stages v more w t) (weaker : ∀ kind, kinds kind → kinds' kind) :
    Shed kinds' s m stages v more w t := { h with chain := h.chain.mono weaker }

theorem trans (first : Shed kinds s m stages v more w t)
    (second : Shed kinds t m (stages ++ more) w rest u r) :
    Shed kinds s m stages v (more ++ rest) u r where
  underway := by simpa using second.underway
  chain := first.chain.trans second.chain
  large := fun st member => (List.mem_append.mp member).elim (first.large st) fun later =>
    absoluteTolerance_of_setup first.setup ▸ second.large st later
  setup := second.setup.trans first.setup
  workspace := second.workspace.trans first.workspace
  tallies := by
    rw [second.tallies, first.tallies, List.length_append, Nat.add_assoc]

theorem choked {e : Status} (first : Shed kinds s m stages v more w t)
    (second : Choked kinds t m (stages ++ more) w e r) : Choked kinds s m stages v e r := by
  obtain ⟨rfl, rest, u, i, j, x, shed, there⟩ := second
  exact ⟨rfl, more ++ rest, u, i, j, x, first.trans shed, there⟩

end Shed

theorem Choked.mono {e : Status} (h : Choked kinds s m stages v e t)
    (weaker : ∀ kind, kinds kind → kinds' kind) : Choked kinds' s m stages v e t := by
  obtain ⟨rfl, more, w, i, j, x, shed, there⟩ := h
  exact ⟨rfl, more, w, i, j, x, shed.mono weaker, there⟩

section Steps

variable {next : List Nat → Action (SparseFactorization α) Unit}
  {Q : Unit → SparseFactorization α → Prop}

theorem Underway.takeColumn (h : Underway s m stages v) (hj : j < m) (only : v.cols j = [(i, x)])
    (large : ¬Scalar.abs x < s.absoluteTolerance)
    (after : ∀ t, Shed (· = .column) s m stages v [v.stageAt i j x] (v.columnPivot i j) t →
      Ends Q (Choked (· = .column) s m stages v) (next (freshColumns v i j) t)) :
    Ends Q (Choked (· = .column) s m stages v) ((do
      let fresh ← SparseFactorization.pivotColumnSingleton i j
      countSingleton
      next fresh) s) := by
  refine ((pivotColumnSingleton_tally.ends (h.pivotColumnSingleton hj only)).mono
    (fun _ _ => id) ?_).bind ?_
  · rintro e t ⟨rfl, rfl, lacking⟩
    exact ⟨rfl, [], v, i, j, x, .refl h, hj, by simp [only], lacking⟩
  · rintro _ t ⟨⟨underway, setup, workspace, rfl⟩, tallies⟩
    rw [countSingleton, bind_of_ok (updateCounters_run _)]
    exact after _ (.single (.ofColumn rfl hj only) large underway setup workspace tallies)

theorem Underway.takeRow (h : Underway s m stages v) (hi : i < m) (only : v.rows i = [j])
    (member : (i, x) ∈ v.cols j) (large : ¬Scalar.abs x < s.absoluteTolerance)
    (after : ∀ t, Shed (· = .row) s m stages v [v.stageAt i j x] (v.rowPivot i j) t →
      Ends Q (Choked (· = .row) s m stages v) (next (freshRows v i j) t)) :
    Ends Q (Choked (· = .row) s m stages v) ((do
      let fresh ← SparseFactorization.pivotRowSingleton i j
      countSingleton
      next fresh) s) := by
  have hj := (h.consistent.rowRange i hi j (by simp [only])).1
  refine ((pivotRowSingleton_tally.ends (h.pivotRowSingleton hi only member)).mono
    (fun _ _ => id) ?_).bind ?_
  · rintro e t ⟨rfl, rfl, lacking⟩
    exact ⟨rfl, [], v, i, j, x, .refl h, hj, member, lacking⟩
  · rintro _ t ⟨⟨underway, setup, workspace, rfl⟩, tallies⟩
    rw [countSingleton, bind_of_ok (updateCounters_run _)]
    exact after _ (.single (.ofRow rfl hi only member) large underway setup workspace tallies)

end Steps

theorem Underway.columnCascade (h : Underway s m stages v) (inside : ∀ j ∈ stack, j < m)
    (enough : stack.length + entryCount m v.cols ≤ fuel)
    (due : ∀ j < m, v.DueColumn s.absoluteTolerance j → j ∈ stack) :
    Ends (fun _ t => ∃ more w, Shed (· = .column) s m stages v more w t ∧
        ∀ j < m, ¬w.DueColumn s.absoluteTolerance j)
      (Choked (· = .column) s m stages v) (SparseFactorization.columnCascade fuel stack s) := by
  induction fuel generalizing s stages v stack with
  | zero =>
    have empty : stack = [] := List.eq_nil_of_length_eq_zero (by omega)
    subst empty
    exact ⟨[], v, .refl h, fun j hj here => absurd (due j hj here) List.not_mem_nil⟩
  | succ fuel ih =>
    cases stack with
    | nil => exact ⟨[], v, .refl h, fun j hj here => absurd (due j hj here) List.not_mem_nil⟩
    | cons j stack =>
      have hj := inside j List.mem_cons_self
      have insideRest := fun k hk => inside k (List.mem_cons_of_mem j hk)
      simp only [List.length_cons] at enough
      -- A column that is passed over is not due.
      have pass : ¬v.DueColumn s.absoluteTolerance j →
          Ends _ (Choked (· = .column) s m stages v) (SparseFactorization.columnCascade fuel stack s) :=
        fun idle => ih h insideRest (by omega) fun k hk here =>
          (List.mem_cons.mp (due k hk here)).resolve_left (by rintro rfl; exact idle here)
      rw [h.columnCascade_cons hj]
      split
      · rename_i done
        exact pass fun here => h.consistent.free_of_dueColumn hj here done
      rcases only : v.cols j with _ | ⟨⟨i, x⟩, _ | ⟨_, _⟩⟩
      case cons.nil =>
        dsimp only
        split
        · rename_i small
          refine pass fun ⟨k, y, single, large⟩ => large ?_
          cases only.symm.trans single
          exact small
        rename_i large
        have paid := length_freshColumns_lt h.consistent hj only
        refine h.takeColumn hj only large fun t taken => (ih taken.underway ?_ ?_ ?_).mono ?_ ?_
        · exact fun k hk => (List.mem_append.mp hk).elim
            (freshColumns_inside h.consistent hj only k) (insideRest k)
        · rw [List.length_append]
          omega
        · intro k hk here
          rw [absoluteTolerance_of_setup taken.setup] at here
          refine List.mem_append.mpr ((h.consistent.due_columnPivot hj only hk here).imp_right ?_)
          exact fun ⟨other, before⟩ => (List.mem_cons.mp (due k hk before)).resolve_left other
        · rintro _ r ⟨rest, w, shed, none⟩
          rw [absoluteTolerance_of_setup taken.setup] at none
          exact ⟨_, w, taken.trans shed, none⟩
        · exact fun _ _ => taken.choked
      all_goals
        exact pass fun ⟨i, x, single, _⟩ => by simp [only] at single

theorem Underway.rowCascade {except : List Nat} (h : Underway s m stages v)
    (inside : ∀ i ∈ stack, i < m) (enough : stack.length + entryCount m v.rows ≤ fuel)
    (due : ∀ i < m, v.DueRow s.absoluteTolerance i → i ∈ stack ∨ i ∈ except) :
    Ends (fun _ t => ∃ more w, Shed (· = .row) s m stages v more w t ∧
        ∀ i < m, w.DueRow s.absoluteTolerance i → i ∈ except)
      (Choked (· = .row) s m stages v) (SparseFactorization.rowCascade fuel stack s) := by
  induction fuel generalizing s stages v stack with
  | zero =>
    have empty : stack = [] := List.eq_nil_of_length_eq_zero (by omega)
    subst empty
    exact ⟨[], v, .refl h, fun i hi here => (due i hi here).resolve_left List.not_mem_nil⟩
  | succ fuel ih =>
    cases stack with
    | nil => exact ⟨[], v, .refl h, fun i hi here => (due i hi here).resolve_left List.not_mem_nil⟩
    | cons i stack =>
      have hi := inside i List.mem_cons_self
      have insideRest := fun k hk => inside k (List.mem_cons_of_mem i hk)
      simp only [List.length_cons] at enough
      -- A row that is passed over is not due either; rows of `except` need no stack.
      have pass : ¬v.DueRow s.absoluteTolerance i →
          Ends _ (Choked (· = .row) s m stages v) (SparseFactorization.rowCascade fuel stack s) :=
        fun idle => ih h insideRest (by omega) fun k hk here =>
          (due k hk here).imp_left fun listed =>
            (List.mem_cons.mp listed).resolve_left (by rintro rfl; exact idle here)
      rw [h.rowCascade_cons hi]
      split
      · rename_i done
        exact pass fun here => h.consistent.free_of_dueRow hi here done
      rcases only : v.rows i with _ | ⟨j, _ | ⟨_, _⟩⟩
      case cons.nil =>
        dsimp only
        split
        · rename_i small
          refine pass fun ⟨l, single, large⟩ => large ?_
          cases only.symm.trans single
          exact small
        rename_i large
        obtain ⟨x, member⟩ := h.consistent.exists_value hi (j := j) (by simp [only])
        have hj := (h.consistent.rowRange i hi j (by simp [only])).1
        rw [valueAt_of_mem (h.consistent.distinctCols j hj) member] at large
        have paid := length_freshRows_lt h.consistent hi only
        refine h.takeRow hi only member large fun t taken => (ih taken.underway ?_ ?_ ?_).mono ?_ ?_
        · exact fun k hk => (List.mem_append.mp hk).elim
            (freshRows_inside h.consistent hi only k) (insideRest k)
        · rw [List.length_append]
          omega
        · intro k hk here
          rw [absoluteTolerance_of_setup taken.setup] at here
          rcases h.consistent.due_rowPivot hi only hk here with fresh | ⟨other, before⟩
          · exact .inl (List.mem_append_left _ fresh)
          · exact (due k hk before).imp_left fun listed =>
              List.mem_append_right _ ((List.mem_cons.mp listed).resolve_left other)
        · rintro _ r ⟨rest, w, shed, none⟩
          rw [absoluteTolerance_of_setup taken.setup] at none
          exact ⟨_, w, taken.trans shed, none⟩
        · exact fun _ _ => taken.choked
      all_goals
        exact pass fun ⟨j, single, _⟩ => by simp [only] at single

/-! ### The singleton phase -/

theorem Underway.columnSingletons (h : Underway s m stages v) :
    Ends (fun _ t => ∃ more w, Shed (· = .column) s m stages v more w t ∧
        ∀ j < m, ¬w.DueColumn s.absoluteTolerance j)
      (Choked (· = .column) s m stages v) (SparseFactorization.columnSingletons s) := by
  have listed := (h.consistent.colListed 1 (by omega)).2
  have singles := h.active.colLists.toList_eq (k := 1) (by rw [h.active.colLength]; omega)
  unfold SparseFactorization.columnSingletons
  rw [get_bind, singles, lift_ok_bind, h.active.cols.count_eq, lift_ok_bind, ← entryCount_eq_sum]
  refine h.columnCascade (fun j hj => ((listed j).mp (List.mem_reverse.mp hj)).1)
    (by rw [List.length_reverse]) fun j hj due => ?_
  obtain ⟨i, x, single, -⟩ := id due
  exact List.mem_reverse.mpr ((listed j).mpr
    ⟨hj, h.consistent.free_of_dueColumn hj due, by simp [single]⟩)

theorem Underway.rowSingletons (h : Underway s m stages v) :
    Ends (fun _ t => ∃ more w, Shed (· = .row) s m stages v more w t ∧
        ∀ i < m, w.DueRow s.absoluteTolerance i → i ∈ v.rowLists (m + 1))
      (Choked (· = .row) s m stages v) (SparseFactorization.rowSingletons s) := by
  obtain ⟨list, lengths, listed⟩ := h.consistent.rowListed
  have singles := h.active.rowLists.toList_eq (k := 1) (by rw [h.active.rowLength]; omega)
  unfold SparseFactorization.rowSingletons
  rw [get_bind, singles, lift_ok_bind, h.active.rows.count_eq, lift_ok_bind, ← entryCount_eq_sum]
  refine h.rowCascade
    (fun i hi => (((listed 1 (by omega)).2 i).mp (List.mem_reverse.mp hi)).1)
    (by rw [List.length_reverse]) fun i hi due => ?_
  obtain ⟨j, single, -⟩ := id due
  have free := h.consistent.free_of_dueRow hi due
  rcases lengths i hi with here | aside
  · rw [single, List.length_singleton] at here
    exact .inl (List.mem_reverse.mpr (((listed 1 (by omega)).2 i).mpr ⟨hi, free, here.symm⟩))
  · exact .inr (((listed (m + 1) (by omega)).2 i).mpr ⟨hi, free, aside.symm⟩)

theorem Shed.dueColumn_of_rows (h : Shed (· = .row) s m stages v more w t) (hj : j < m)
    (due : w.DueColumn tolerance j) : v.DueColumn tolerance j := by
  obtain ⟨i, x, single, large⟩ := due
  have free : j ∉ more.map Stage.col := fun done => by
    have none := h.underway.consistent.col_done hj (by simp only [List.map_append]; simp [done])
    simp [none] at single
  exact ⟨i, x, h.chain.cols_eq (by simp) free ▸ single, large⟩

theorem Shed.dueRow_of_columns (consistent : v.Consistent m rowsDone colsDone)
    (h : Shed (· = .column) s m stages v more w t) (hi : i < m)
    (due : w.DueRow tolerance i) : v.DueRow tolerance i := by
  obtain ⟨j, single, large⟩ := due
  have after := h.underway.consistent
  have free : i ∉ more.map Stage.row := fun done => by
    have none := after.row_done hi (by simp only [List.map_append]; simp [done])
    simp [none] at single
  obtain ⟨x, member⟩ := after.exists_value hi (j := j) (by simp [single])
  have hj := (after.rowRange i hi j (by simp [single])).1
  have before := ((h.chain.left consistent j hj i x).mp member).2.2
  rw [valueAt_of_mem (after.distinctCols j hj) member] at large
  refine ⟨j, h.chain.rows_eq (by simp) free ▸ single, ?_⟩
  rwa [valueAt_of_mem (consistent.distinctCols j hj) before]

theorem Underway.singletons (h : Underway s m stages v) :
    Ends (fun _ t => ∃ k₁ k₂ first u mid second w,
        (if 0 ≤ s.options.singletonBias then
          k₁ = .column ∧ k₂ = .row ∧ SparseFactorization.columnSingletons s = .ok () u ∧
            SparseFactorization.rowSingletons u = .ok () t ∧
            ∀ j < m, ¬mid.DueColumn s.absoluteTolerance j
        else k₁ = .row ∧ k₂ = .column ∧ SparseFactorization.rowSingletons s = .ok () u ∧
            SparseFactorization.columnSingletons u = .ok () t) ∧
        Shed (· = k₁) s m stages v first mid u ∧
        Shed (· = k₂) u m (stages ++ first) mid second w t ∧
        (∀ j < m, ¬w.DueColumn s.absoluteTolerance j) ∧
        ∀ i < m, w.DueRow s.absoluteTolerance i → i ∈ v.rowLists (m + 1))
      (Choked (fun _ => True) s m stages v) (SparseFactorization.singletons s) := by
  unfold SparseFactorization.singletons
  rw [get_bind]
  by_cases bias : 0 ≤ s.options.singletonBias
  · simp only [if_pos bias]
    refine (h.columnSingletons.or.noted.ends.mono (fun _ _ => id) fun e u stuck =>
      stuck.2.mono fun _ _ => trivial).bind ?_
    rintro _ u ⟨run, first, mid, shed, columns⟩
    have tolerance := absoluteTolerance_of_setup shed.setup
    refine shed.underway.rowSingletons.or.noted.ends.mono ?_ ?_
    · rintro _ t ⟨run', second, w, shed', rows⟩
      rw [tolerance] at rows
      refine ⟨_, _, first, u, mid, second, w, ⟨rfl, rfl, run, run', columns⟩, shed, shed', ?_, ?_⟩
      · exact fun j hj due => columns j hj (shed'.dueColumn_of_rows hj due)
      · exact fun i hi due => shed.chain.aside (by simp) (rows i hi due)
    · exact fun e t stuck => (shed.mono fun _ _ => trivial).choked (stuck.2.mono fun _ _ => trivial)
  · simp only [if_neg bias]
    refine (h.rowSingletons.or.noted.ends.mono (fun _ _ => id) fun e u stuck =>
      stuck.2.mono fun _ _ => trivial).bind ?_
    rintro _ u ⟨run, first, mid, shed, rows⟩
    have tolerance := absoluteTolerance_of_setup shed.setup
    refine shed.underway.columnSingletons.or.noted.ends.mono ?_ ?_
    · rintro _ t ⟨run', second, w, shed', columns⟩
      rw [tolerance] at columns
      refine ⟨_, _, first, u, mid, second, w, ⟨rfl, rfl, run, run'⟩, shed, shed', columns, ?_⟩
      exact fun i hi due => rows i hi (shed'.dueRow_of_columns shed.underway.consistent hi due)
    · exact fun e t stuck => (shed.mono fun _ _ => trivial).choked (stuck.2.mono fun _ _ => trivial)

end SparseFactorization

end SimplexBasis
