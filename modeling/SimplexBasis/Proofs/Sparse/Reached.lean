import SimplexBasis.Proofs.Sparse.Product

/-!
# The active submatrix between pivots

The states that loading and pivoting in any order lead to, and what holds in all of them: both files,
both families of count lists, the maxima, the orders of the pivots and the areas agree.
-/

set_option linter.unusedSectionVars false

namespace SimplexBasis

variable {α : Type} [Scalar α]

namespace SparseFactorization

/-- The files hold the given columns and rows, and everything else fits to them. -/
structure Intact (s : SparseFactorization α) (cols : Nat → List (Nat × α)) (rows : Nat → List Nat) :
    Prop where
  column : ∀ j < s.dimension, s.active.cols.line j = .ok (cols j)
  row : ∀ i < s.dimension, s.active.rows.line i = .ok (rows i)
  agree : ∀ i < s.dimension, ∀ j < s.dimension, j ∈ rows i ↔ i ∈ keys (cols j)
  distinctCols : ∀ j < s.dimension, (keys (cols j)).Nodup
  distinctRows : ∀ i < s.dimension, (rows i).Nodup
  colRange : ∀ j < s.dimension, ∀ i ∈ keys (cols j), i ∈ Factors.unpivoted s.factors.stageOfRow
  rowRange : ∀ i < s.dimension, ∀ j ∈ rows i, j ∈ Factors.unpivoted s.factors.stageOfCol
  colDone : ∀ j < s.dimension, j ∉ Factors.unpivoted s.factors.stageOfCol → cols j = []
  rowDone : ∀ i < s.dimension, i ∉ Factors.unpivoted s.factors.stageOfRow → rows i = []
  /-- Columns without a pivot are listed by their lengths. -/
  colListed : ∃ lists, (∀ n < s.dimension + 2, s.active.colCounts.toList n = .ok (lists n)) ∧
    Listed s.dimension lists fun j n =>
      j ∈ Factors.unpivoted s.factors.stageOfCol ∧ n = (cols j).length
  /-- So are rows without a pivot, but for those set aside. -/
  rowListed : ∃ (lists : Nat → List Nat) (list : Nat → Nat),
    (∀ n < s.dimension + 2, s.active.rowCounts.toList n = .ok (lists n)) ∧
    (∀ i < s.dimension, list i = (rows i).length ∨ list i = s.dimension + 1) ∧
    Listed s.dimension lists fun i n => i ∈ Factors.unpivoted s.factors.stageOfRow ∧ n = list i
  largest : LawfulMagnitudes α → ∀ j ∈ Factors.unpivoted s.factors.stageOfCol,
    s.active.colMax[j]? = some (largestOf (cols j))
  counted : s.active.nonzeros = entryCount s.dimension cols
  rowOrder : ∀ i k : Nat, s.factors.stageOfRow[i]? = some (some k) ↔ s.factors.pivotRows[k]? = some i
  colOrder : ∀ j k : Nat, s.factors.stageOfCol[j]? = some (some k) ↔ s.factors.pivotCols[k]? = some j
  paired : s.factors.pivotRows.size = s.factors.pivotCols.size
  slots : s.workspace.slot = .replicate s.dimension none
  lowerArea : s.factors.lower.count ≤ s.capacity.lower
  upperArea : s.factors.upper.count ≤ s.capacity.upper

/-- Nothing that the active submatrix depends on has changed. -/
structure Kept (s t : SparseFactorization α) : Prop where
  options : t.options = s.options
  dimension : t.dimension = s.dimension
  capacity : t.capacity = s.capacity
  active : t.active = s.active
  factors : t.factors = s.factors
  workspace : t.workspace = s.workspace

/-- The states that loading a basis, searches and successful pivots, in any order, lead to under
given options. -/
inductive Reached (o : Options α) (b : BasisMatrix α) : SparseFactorization α → Prop
  | load {q r s : SparseFactorization α} {announced lowerHint upperHint : Nat}
      (accepted : b.Accepted) (options : q.options = o)
      (allocated : allocate announced lowerHint upperHint q = .ok () r)
      (loaded : load b r = .ok () s) (complete : s.pending = none) : Reached o b s
  | keep {s t : SparseFactorization α} (reached : Reached o b s) (kept : s.Kept t) : Reached o b t
  | search {s t : SparseFactorization α} {found : Option (Nat × Nat)} (reached : Reached o b s)
      (run : findPivot s = .ok found t) : Reached o b t
  | columnSingleton {s t : SparseFactorization α} {i j : Nat} {stack : List Nat}
      (reached : Reached o b s) (inside : j < s.dimension)
      (run : pivotColumnSingleton i j s = .ok stack t) : Reached o b t
  | rowSingleton {s t : SparseFactorization α} {i j : Nat} {stack : List Nat}
      (reached : Reached o b s) (insideRow : i < s.dimension) (insideCol : j < s.dimension)
      (run : pivotRowSingleton i j s = .ok stack t) : Reached o b t
  | pivot {s t : SparseFactorization α} {i j : Nat} (reached : Reached o b s)
      (insideRow : i < s.dimension) (insideCol : j < s.dimension) (run : pivotOn i j s = .ok () t) :
      Reached o b t

variable {s t : SparseFactorization α} {o : Options α} {b : BasisMatrix α}
  {stages : List (Stage α)}
  {v w : ActiveView α} {m i j : Nat} {x : α}

/-! ### Pivots that succeed -/

theorem Working.value?_none (h : Working s m stages v) (hj : j < m) (absent : i ∉ keys (v.cols j)) :
    s.active.value? i j = .ok none := by
  unfold Active.value?
  rw [h.active.cols.line_eq hj]
  have missing : (v.cols j).find? (·.1 == i) = none := List.find?_eq_none.mpr fun e he => by
    have other : e.1 ≠ i := fun eq => absent (List.mem_map.mpr ⟨e, he, eq⟩)
    simpa using other
  exact congrArg (fun o => Except.ok (Option.map Prod.snd o)) missing

theorem Working.only_of_columnSingleton (h : Working s m stages v) (hj : j < m) {stack : List Nat}
    (run : SparseFactorization.pivotColumnSingleton i j s = .ok stack t) :
    ∃ x, v.cols j = [(i, x)] := by
  unfold SparseFactorization.pivotColumnSingleton at run
  rw [get_bind, h.active.cols.line_eq hj, lift_ok_bind] at run
  generalize v.cols j = entries at run ⊢
  rcases entries with _ | ⟨⟨r, x⟩, _ | ⟨_, _⟩⟩
  · exact nomatch run
  · dsimp only at run
    by_cases same : r = i
    · exact ⟨x, by rw [same]⟩
    · rw [beq_false_of_ne same] at run
      exact nomatch run
  · exact nomatch run

theorem Working.only_of_rowSingleton (h : Working s m stages v) (hi : i < m) (hj : j < m)
    {stack : List Nat} (run : SparseFactorization.pivotRowSingleton i j s = .ok stack t) :
    v.rows i = [j] ∧ ∃ x, (i, x) ∈ v.cols j := by
  unfold SparseFactorization.pivotRowSingleton at run
  rw [get_bind, h.active.rows.length_eq hi, lift_ok_bind] at run
  by_cases single : (v.rows i).length = 1
  · by_cases stored : i ∈ keys (v.cols j)
    · obtain ⟨k, only⟩ := List.length_eq_one_iff.mp single
      have member := (h.consistent.agree i hi j hj).mpr stored
      refine ⟨?_, h.consistent.exists_value hi member⟩
      rw [only] at member ⊢
      rw [List.mem_singleton.mp member]
    · rw [beq_iff_eq.mpr single, require_true_bind, get_bind, h.value?_none hj stored,
        lift_ok_bind] at run
      exact nomatch run
  · rw [beq_false_of_ne single] at run
    exact nomatch run

theorem Working.mem_of_pivotOn (h : Working s m stages v) (hi : i < m) (hj : j < m)
    (run : SparseFactorization.pivotOn i j s = .ok () t) : ∃ x, (i, x) ∈ v.cols j := by
  by_contra missing
  have absent : i ∉ keys (v.cols j) := fun stored =>
    missing (h.consistent.exists_value hi ((h.consistent.agree i hi j hj).mpr stored))
  unfold SparseFactorization.pivotOn at run
  rw [get_bind, h.active.cols.length_eq hj, lift_ok_bind] at run
  split at run
  · obtain ⟨stack, _, singleton, -⟩ := ok_of_bind run
    obtain ⟨x, only⟩ := h.only_of_columnSingleton hj singleton
    exact missing ⟨x, by simp [only]⟩
  · rw [h.active.rows.length_eq hi, lift_ok_bind] at run
    split at run
    · obtain ⟨stack, _, singleton, -⟩ := ok_of_bind run
      exact missing (h.only_of_rowSingleton hi hj singleton).2
    · unfold SparseFactorization.pivotGeneral at run
      rw [get_bind, h.value?_none hj absent, lift_ok_bind] at run
      exact nomatch run

/-! ### The invariant -/

theorem Working.of_kept (h : Working s m stages v) (kept : s.Kept t) : Working t m stages v where
  dimension := kept.dimension.trans h.dimension
  factors := kept.factors.trans h.factors
  active := by rw [kept.active, kept.capacity]; exact h.active
  consistent := h.consistent
  distinctRows := h.distinctRows
  distinctCols := h.distinctCols
  insideRows := h.insideRows
  insideCols := h.insideCols
  workspace := kept.workspace ▸ h.workspace
  roomy := by rw [kept.options, kept.capacity]; exact h.roomy
  addressable := by rw [kept.capacity]; exact h.addressable
  contained := h.contained.congr kept.factors kept.capacity

/-- The state shows a view of which the maxima are known. -/
def Shown (s : SparseFactorization α) : Prop :=
  ∃ stages v, Working s s.dimension stages v ∧
    (LawfulMagnitudes α → v.MaxKnown s.dimension (stages.map Stage.col))

theorem Shown.pivoted (known : LawfulMagnitudes α → v.MaxKnown s.dimension (stages.map Stage.col))
    (h : Working s s.dimension stages v) (hj : j < s.dimension) (member : (i, x) ∈ v.cols j)
    (setup : t.setup = s.setup) (working : Working t s.dimension (stages ++ [v.stageAt i j x])
      (v.pivotAt s.options.zeroTolerance i j x)) : t.Shown := by
  have dimension := dimension_of_setup setup
  refine ⟨_, _, dimension.symm ▸ working, fun lawful => ?_⟩
  have chain := @Pivoting.single _ _ _ _ _ _ s.options.zeroTolerance _ _ h.consistent hj member
  rw [dimension]
  exact chain.maxKnown (known lawful)

/-- The invariant holds after loading and is kept by searches and pivots. -/
theorem Reached.shown (spares : o.SparesWithin b.dimension) (h : Reached o b s) : s.Shown := by
  induction h with
  | load accepted options allocated loaded complete =>
    obtain ⟨prepared, kept⟩ := (allocate_ends _ _ _ _).result allocated
    obtain ⟨columns, holds, -⟩ := accepted.holds
    obtain ⟨-, -, -, -, -, loaded | pending⟩ := (load_ends prepared holds
      (spacious_of_spares (by rwa [kept, options]))).result loaded
    · obtain ⟨v, stages, w, initial, chain, working⟩ := loaded.working
      exact ⟨stages, w, working, fun _ => by simpa using chain.maxKnown initial.known⟩
    · exact nomatch complete.symm.trans pending
  | keep _ kept ih =>
    obtain ⟨stages, v, working, known⟩ := ih
    refine ⟨stages, v, ?_, ?_⟩ <;> rw [kept.dimension]
    · exact working.of_kept kept
    · exact known
  | search _ run ih =>
    obtain ⟨stages, v, working, known⟩ := ih
    obtain ⟨found, t, w, run', searched, -⟩ := findPivot_ok working
    cases run.symm.trans run'
    refine ⟨stages, w, ?_, ?_⟩ <;> rw [dimension_of_setup searched.setup]
    · exact searched.working
    · exact fun lawful => searched.same.maxKnown (known lawful)
  | @columnSingleton s t i j _ _ inside run ih =>
    obtain ⟨stages, v, working, known⟩ := ih
    obtain ⟨x, only⟩ := working.only_of_columnSingleton inside run
    obtain ⟨after, setup, -⟩ := (working.pivotColumnSingleton inside only).result run
    have member : (i, x) ∈ v.cols j := by simp [only]
    refine Shown.pivoted known working inside member setup ?_
    rwa [ActiveView.pivotAt_of_col only]
  | rowSingleton _ insideRow insideCol run ih =>
    obtain ⟨stages, v, working, known⟩ := ih
    obtain ⟨only, x, member⟩ := working.only_of_rowSingleton insideRow insideCol run
    obtain ⟨after, setup, -⟩ := (working.pivotRowSingleton insideRow only member).result run
    refine Shown.pivoted known working insideCol member setup ?_
    rwa [ActiveView.pivotAt_of_row only member]
  | pivot _ insideRow insideCol run ih =>
    obtain ⟨stages, v, working, known⟩ := ih
    obtain ⟨x, member⟩ := working.mem_of_pivotOn insideRow insideCol run
    obtain ⟨after, setup⟩ := (working.pivotOn insideCol member).result run
    exact Shown.pivoted known working insideCol member setup after

theorem mem_unpivoted {xs : List Nat} :
    i ∈ Factors.unpivoted ((Array.range m).map fun k => xs.idxOf? k) ↔ i < m ∧ i ∉ xs := by
  rw [Factors.unpivoted_eq]
  simp

theorem stageOf_eq_some {xs : List Nat} (distinct : xs.Nodup) (inside : ∀ i ∈ xs, i < m) {k : Nat} :
    ((Array.range m).map fun i => xs.idxOf? i)[i]? = some (some k) ↔ xs.toArray[k]? = some i := by
  have read : ((Array.range m).map fun i => xs.idxOf? i)[i]? =
      if i < m then some (xs.idxOf? i) else none := by
    by_cases hi : i < m <;> simp [hi]
  rw [read, List.getElem?_toArray]
  constructor
  · intro found
    split at found
    · exact idxOf?_eq_some (Option.some.inj found)
    · cases found
  · intro here
    have member := List.mem_of_getElem? here
    have found := Factors.idxOf?_of_mem member
    rw [if_pos (inside i member), found, nodup_getElem? distinct (idxOf?_eq_some found) here]

/-- In every state that loading and pivoting lead to, the active submatrix is intact. -/
theorem intact_of_reached (spares : o.SparesWithin b.dimension) (h : Reached o b s) :
    ∃ cols rows, s.Intact cols rows := by
  obtain ⟨stages, v, working, known⟩ := h.shown spares
  have active := working.active
  have consistent := working.consistent
  have rowsLeft : ∀ i, i ∈ Factors.unpivoted s.factors.stageOfRow ↔
      i < s.dimension ∧ i ∉ stages.map Stage.row := fun i => by
    rw [working.factors]
    exact mem_unpivoted
  have colsLeft : ∀ j, j ∈ Factors.unpivoted s.factors.stageOfCol ↔
      j < s.dimension ∧ j ∉ stages.map Stage.col := fun j => by
    rw [working.factors]
    exact mem_unpivoted
  obtain ⟨list, place, rowListed⟩ := consistent.rowListed
  refine ⟨v.cols, v.rows, ?_⟩
  exact
    { column := fun j hj => active.cols.line_eq hj
      row := fun i hi => active.rows.line_eq hi
      agree := consistent.agree
      distinctCols := consistent.distinctCols
      distinctRows := consistent.distinctRows
      colRange := fun j hj i hi => (rowsLeft i).mpr (consistent.colRange j hj i hi)
      rowRange := fun i hi j hj => (colsLeft j).mpr (consistent.rowRange i hi j hj)
      colDone := fun j hj done => consistent.col_done hj (by
        by_contra free
        exact done ((colsLeft j).mpr ⟨hj, free⟩))
      rowDone := fun i hi done => consistent.row_done hi (by
        by_contra free
        exact done ((rowsLeft i).mpr ⟨hi, free⟩))
      colListed := ⟨v.colLists,
        fun n hn => active.colLists.toList_eq (by rw [active.colLength]; exact hn),
        consistent.colListed.congr fun j hj n _ => by rw [colsLeft]; simp [hj]⟩
      rowListed := ⟨v.rowLists, list,
        fun n hn => active.rowLists.toList_eq (by rw [active.rowLength]; exact hn), place,
        rowListed.congr fun i hi n _ => by rw [rowsLeft]; simp [hi]⟩
      largest := fun lawful j free => by
        obtain ⟨hj, fresh⟩ := (colsLeft j).mp free
        have sized : j < s.active.colMax.size := by rw [active.colMax, consistent.sized]; exact hj
        rw [Array.getElem?_eq_getElem sized, ← known lawful j hj fresh, ← active.colMax]
        simp [Array.getD, sized]
      counted := active.nonzeros.trans consistent.counted
      rowOrder := fun i k => by
        rw [working.factors]
        exact stageOf_eq_some working.distinctRows working.insideRows
      colOrder := fun j k => by
        rw [working.factors]
        exact stageOf_eq_some working.distinctCols working.insideCols
      paired := by rw [working.factors]; simp [Factors.ofStages]
      slots := working.workspace.slot
      lowerArea := working.contained.lower
      upperArea := working.contained.upper }

/-- One pivot of a loaded matrix. -/
theorem intact_after_pivot : exactly.SparesWithin twoByTwo.dimension ∧ ∃ s,
    Reached exactly twoByTwo s ∧ s.rank = 1 ∧ ∃ cols rows, s.Intact cols rows := by
  obtain ⟨r, s, run, check⟩ := @exists_ok_of_check _ _ (do
      allocate 2 4 4
      load twoByTwo
      let r ← get
      pivotOn 0 0
      return r : Action (SparseFactorization ℚ) (SparseFactorization ℚ)) (new exactly)
    (fun r s => r.pending.isNone && r.dimension == 2 && s.rank == 1) (by decide +kernel)
  obtain ⟨_, q, allocated, rest⟩ := ok_of_bind run
  obtain ⟨_, _, loaded, rest⟩ := ok_of_bind rest
  rw [get_bind] at rest
  obtain ⟨_, s, pivoted, ⟨⟩⟩ := ok_of_bind rest
  simp only [Bool.and_eq_true, beq_iff_eq, Option.isNone_iff_eq_none] at check
  obtain ⟨⟨complete, dimension⟩, rank⟩ := check
  have start : Reached exactly twoByTwo r :=
    .load (BasisMatrix.accepted_of_isOk (by decide +kernel)) rfl allocated loaded complete
  have reached := start.pivot (by omega) (by omega) pivoted
  have spares : exactly.SparesWithin twoByTwo.dimension := by decide +kernel
  exact ⟨spares, s, reached, rank, intact_of_reached spares reached⟩

/-- A basis whose lines overlap once they have to be moved. -/
def entangled : BasisMatrix ℚ :=
  ⟨5, .ofLines [[(0, -1), (3, -2), (1, 1)], [(2, -2), (1, -1), (0, 4)], [(4, -2), (3, 4), (2, -2)],
    [(3, -1), (1, -1), (0, 2)], [(4, 4), (1, 4), (3, -2), (0, 4)]]⟩

/-- Without the bound on the spare entries, the searched pivots need not leave the active submatrix
intact: the second one is in the row of the first. -/
theorem not_intact_of_overlap : ∃ s, Reached boundless entangled s ∧
    ¬∃ cols rows, s.Intact cols rows := by
  obtain ⟨_, s, run, check⟩ := @exists_ok_of_check _ _ (do
      allocate 5 300 18
      load entangled
      let r ← get
      modify fun s => s.begun .standard
      let first ← findPivot
      let u ← get
      pivotOn 2 1
      let second ← findPivot
      let u' ← get
      pivotOn 2 0
      return (first, second, r, u.dimension, u'.dimension) : Action (SparseFactorization ℚ)
        (Option (Nat × Nat) × Option (Nat × Nat) × SparseFactorization ℚ × Nat × Nat))
      (new boundless)
    (fun (first, second, r, size, size') s => first == some (2, 1) && second == some (2, 0) &&
      r.pending.isNone && size == 5 && size' == 5 &&
      s.factors.stageOfRow == #[none, none, some 1, none, none] && s.factors.pivotRows == #[2, 2])
    (by decide +kernel)
  obtain ⟨_, q, allocated, rest⟩ := ok_of_bind run
  obtain ⟨_, r, loaded, rest⟩ := ok_of_bind rest
  rw [get_bind, modify_bind] at rest
  obtain ⟨_, u, search, rest⟩ := ok_of_bind rest
  rw [get_bind] at rest
  obtain ⟨_, t, pivoted, rest⟩ := ok_of_bind rest
  obtain ⟨_, u', search', rest⟩ := ok_of_bind rest
  rw [get_bind] at rest
  obtain ⟨_, s, pivoted', ⟨⟩⟩ := ok_of_bind rest
  simp only [Bool.and_eq_true, beq_iff_eq, Option.isNone_iff_eq_none] at check
  obtain ⟨⟨⟨⟨⟨⟨-, -⟩, complete⟩, size⟩, size'⟩, stages⟩, rows⟩ := check
  have start : Reached boundless entangled r :=
    .load (BasisMatrix.accepted_of_isOk (by decide +kernel)) rfl allocated loaded complete
  have begun := start.keep (t := r.begun .standard) ⟨rfl, rfl, rfl, rfl, rfl, rfl⟩
  have reached := (begun.search search).pivot (by omega) (by omega) pivoted
  have reached' := (reached.search search').pivot (by omega) (by omega) pivoted'
  refine ⟨s, reached', fun ⟨cols, rows', intact⟩ => ?_⟩
  have order := (intact.rowOrder 2 0).mpr (by simp [rows])
  simp [stages] at order

/-! ### Runs -/

theorem Reached.countSingleton (h : Reached o b s)
    (run : SparseFactorization.countSingleton s = .ok () t) : Reached o b t := by
  cases run
  exact h.keep ⟨rfl, rfl, rfl, rfl, rfl, rfl⟩

theorem Reached.logCompressions {seen seen' : Nat} (h : Reached o b s)
    (run : SparseFactorization.logCompressions seen s = .ok seen' t) : Reached o b t := by
  obtain ⟨xs, rfl⟩ := logCompressions_result run
  exact h.keep ⟨rfl, rfl, rfl, rfl, rfl, rfl⟩

variable (spares : o.SparesWithin b.dimension)
include spares

theorem Reached.columns_inside (h : Reached o b s) (hj : j < s.dimension) {stack : List Nat}
    (run : pivotColumnSingleton i j s = .ok stack t) :
    t.dimension = s.dimension ∧ ∀ k ∈ stack, k < s.dimension := by
  obtain ⟨stages, v, working, -⟩ := h.shown spares
  obtain ⟨x, only⟩ := working.only_of_columnSingleton hj run
  obtain ⟨-, setup, rfl⟩ := (working.pivotColumnSingleton hj only).result run
  exact ⟨dimension_of_setup setup, freshColumns_inside working.consistent hj only⟩

theorem Reached.rows_inside (h : Reached o b s) (hi : i < s.dimension) (hj : j < s.dimension)
    {stack : List Nat} (run : pivotRowSingleton i j s = .ok stack t) :
    t.dimension = s.dimension ∧ ∀ k ∈ stack, k < s.dimension := by
  obtain ⟨stages, v, working, -⟩ := h.shown spares
  obtain ⟨only, x, member⟩ := working.only_of_rowSingleton hi hj run
  obtain ⟨-, setup, rfl⟩ := (working.pivotRowSingleton hi only member).result run
  exact ⟨dimension_of_setup setup, freshRows_inside working.consistent hi only⟩

theorem Reached.columnCascade {fuel : Nat} {stack : List Nat} (h : Reached o b s)
    (inside : ∀ j ∈ stack, j < s.dimension)
    (run : SparseFactorization.columnCascade fuel stack s = .ok () t) : Reached o b t := by
  induction fuel generalizing s stack with
  | zero =>
    cases stack with
    | nil => cases run; exact h
    | cons j stack => exact nomatch run
  | succ fuel ih =>
    cases stack with
    | nil => cases run; exact h
    | cons j stack =>
      have hj := inside j List.mem_cons_self
      have rest := fun k hk => inside k (List.mem_cons_of_mem j hk)
      unfold SparseFactorization.columnCascade at run
      rw [get_bind] at run
      obtain ⟨pivoted, -, run⟩ := ok_of_lift_bind run
      split at run
      · exact ih h rest run
      · obtain ⟨line, -, run⟩ := ok_of_lift_bind run
        split at run
        · split at run
          · exact ih h rest run
          · obtain ⟨fresh, u, pivot, run⟩ := ok_of_bind run
            obtain ⟨_, u', counted, run⟩ := ok_of_bind run
            obtain ⟨dimension, freshInside⟩ := h.columns_inside spares hj pivot
            have same : u'.dimension = u.dimension := by cases counted; rfl
            refine ih ((h.columnSingleton hj pivot).countSingleton counted) (fun k hk => ?_) run
            rw [same, dimension]
            exact (List.mem_append.mp hk).elim (freshInside k) (rest k)
        · exact ih h rest run

theorem Reached.rowCascade {fuel : Nat} {stack : List Nat} (h : Reached o b s)
    (inside : ∀ i ∈ stack, i < s.dimension)
    (run : SparseFactorization.rowCascade fuel stack s = .ok () t) : Reached o b t := by
  induction fuel generalizing s stack with
  | zero =>
    cases stack with
    | nil => cases run; exact h
    | cons i stack => exact nomatch run
  | succ fuel ih =>
    cases stack with
    | nil => cases run; exact h
    | cons i stack =>
      have hi := inside i List.mem_cons_self
      have rest := fun k hk => inside k (List.mem_cons_of_mem i hk)
      unfold SparseFactorization.rowCascade at run
      rw [get_bind] at run
      obtain ⟨pivoted, -, run⟩ := ok_of_lift_bind run
      split at run
      · exact ih h rest run
      · obtain ⟨line, read, run⟩ := ok_of_lift_bind run
        split at run
        · rename_i j
          obtain ⟨stages, v, working, -⟩ := h.shown spares
          have only : v.rows i = [j] := by
            rw [working.active.rows.line_eq hi] at read
            exact Except.ok.inj read
          have hj := (working.consistent.rowRange i hi j (by simp [only])).1
          obtain ⟨y, -, run⟩ := ok_of_lift_bind run
          dsimp only at run
          split at run
          · exact ih h rest run
          · obtain ⟨fresh, u, pivot, run⟩ := ok_of_bind run
            obtain ⟨_, u', counted, run⟩ := ok_of_bind run
            obtain ⟨dimension, freshInside⟩ := h.rows_inside spares hi hj pivot
            have same : u'.dimension = u.dimension := by cases counted; rfl
            refine ih ((h.rowSingleton hi hj pivot).countSingleton counted) (fun k hk => ?_) run
            rw [same, dimension]
            exact (List.mem_append.mp hk).elim (freshInside k) (rest k)
        · exact ih h rest run

theorem Reached.columnSingletons (h : Reached o b s)
    (run : SparseFactorization.columnSingletons s = .ok () t) : Reached o b t := by
  obtain ⟨stages, v, working, -⟩ := h.shown spares
  unfold SparseFactorization.columnSingletons at run
  rw [get_bind, working.active.colLists.toList_eq (by rw [working.active.colLength]; omega),
    lift_ok_bind] at run
  obtain ⟨count, -, run⟩ := ok_of_lift_bind run
  exact h.columnCascade spares (fun j hj =>
    (((working.consistent.colListed 1 (by omega)).2 j).mp (List.mem_reverse.mp hj)).1) run

theorem Reached.rowSingletons (h : Reached o b s)
    (run : SparseFactorization.rowSingletons s = .ok () t) : Reached o b t := by
  obtain ⟨stages, v, working, -⟩ := h.shown spares
  obtain ⟨list, -, listed⟩ := working.consistent.rowListed
  unfold SparseFactorization.rowSingletons at run
  rw [get_bind, working.active.rowLists.toList_eq (by rw [working.active.rowLength]; omega),
    lift_ok_bind] at run
  obtain ⟨count, -, run⟩ := ok_of_lift_bind run
  exact h.rowCascade spares (fun i hi =>
    (((listed 1 (by omega)).2 i).mp (List.mem_reverse.mp hi)).1) run

theorem Reached.singletons (h : Reached o b s)
    (run : SparseFactorization.singletons s = .ok () t) : Reached o b t := by
  unfold SparseFactorization.singletons at run
  rw [get_bind] at run
  split at run
  · obtain ⟨_, u, first, second⟩ := ok_of_bind run
    exact ((h.columnSingletons spares first).rowSingletons spares second)
  · obtain ⟨_, u, first, second⟩ := ok_of_bind run
    exact ((h.rowSingletons spares first).columnSingletons spares second)

theorem Reached.pivotLoop {remaining seen : Nat} (h : Reached o b s)
    (run : SparseFactorization.pivotLoop remaining seen s = .ok () t) :
    Reached o b t ∨ ∃ u, Reached o b u ∧ factorizeBlock u = .ok () t := by
  induction remaining generalizing s seen with
  | zero =>
    cases run
    exact .inl h
  | succ remaining ih =>
    unfold SparseFactorization.pivotLoop at run
    rw [get_bind] at run
    obtain ⟨due, -, run⟩ := ok_of_lift_bind run
    split at run
    · exact .inr ⟨s, h, run⟩
    · obtain ⟨stages, v, working, -⟩ := h.shown spares
      obtain ⟨found, u, w, search, ⟨-, setup, same, -⟩, answer, -⟩ := findPivot_ok working
      rw [bind_of_ok search] at run
      have reached := h.search search
      rcases found with _ | ⟨i, j⟩
      · cases run
        exact .inl reached
      · obtain ⟨hj, key⟩ := answer
        have hi := (working.consistent.colRange j hj i key).1
        have dimension := dimension_of_setup setup
        rw [← dimension] at hi hj
        obtain ⟨_, u', pivot, run⟩ := ok_of_bind run
        obtain ⟨seen', u'', logged, run⟩ := ok_of_bind run
        exact ih ((reached.pivot hi hj pivot).logCompressions logged) run

end SparseFactorization

end SimplexBasis
