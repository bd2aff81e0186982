import SimplexBasis.Proofs.Sparse.Looping
import SimplexBasis.Proofs.Transposition

/-!
# Factorizing a loaded basis

A completed factorization holds stages that make up the loaded matrix, with the rows of the lower and
the columns of the upper factor replaced by the stages in which they are pivoted.
-/

set_option linter.unusedSectionVars false

namespace SimplexBasis

/-! ### Stages in place of rows and columns -/

/-- Entries with the positions of their indices in `order`. -/
def renumbered {α : Type} (order : List Nat) (entries : List (Nat × α)) : List (Nat × α) :=
  entries.map fun e => (order.idxOf e.1, e.2)

namespace Factors

variable {α : Type} [Scalar α] {m : Nat} {all : List (Stage α)}

def numbered (m : Nat) (all : List (Stage α)) : Factors α :=
  { ofStages m all with
    lower := .ofLines (all.map fun st => renumbered (all.map Stage.row) st.lower)
    upper := .ofLines (all.map fun st => renumbered (all.map Stage.col) st.upper) }

theorem idxOf?_of_mem {xs : List Nat} {i : Nat} (member : i ∈ xs) :
    xs.idxOf? i = some (xs.idxOf i) := by
  induction xs with
  | nil => simp at member
  | cons x xs ih => grind

theorem stagesOf_eq {xs index : List Nat} (perm : xs.Perm (List.range m))
    (inside : ∀ i ∈ index, i < m) :
    stagesOf ((Array.range m).map fun i => xs.idxOf? i) index.toArray =
      .ok (index.map xs.idxOf).toArray := by
  have read : ∀ i ∈ index, (do
      return (← entry ((Array.range m).map fun i => xs.idxOf? i) i).getD Word.last :
        Checked Nat) = .ok (xs.idxOf i) := by
    intro i hi
    have here : entry ((Array.range m).map fun i => xs.idxOf? i) i = .ok (some (xs.idxOf i)) := by
      rw [entry_eq_ok_iff, ← idxOf?_of_mem (perm.mem_iff.mpr (List.mem_range.mpr (inside i hi)))]
      simp [inside i hi]
    rw [here]
    rfl
  unfold stagesOf
  rw [List.mapM_toArray, checked_mapM read]
  rfl

theorem start_map_ofLines (f : List (Nat × α) → List (Nat × α))
    (length : ∀ line, (f line).length = line.length) (lines : List (List (Nat × α))) :
    (Compressed.ofLines (lines.map f)).start = (Compressed.ofLines lines).start := by
  have flat : ∀ k, ((lines.map f).take k).flatten.length = (lines.take k).flatten.length := by
    intro k
    rw [← List.map_take, List.length_flatten, List.length_flatten, List.map_map]
    exact congrArg List.sum (List.map_congr_left fun line _ => length line)
  refine Array.ext_getElem? fun k => ?_
  by_cases hk : k ≤ lines.length
  · rw [Compressed.start_ofLines _ k hk, Compressed.start_ofLines _ k (by simpa using hk), flat]
  · have sized := Compressed.size_start_ofLines lines
    have sized' := Compressed.size_start_ofLines (lines.map f)
    rw [List.length_map] at sized'
    rw [Array.getElem?_eq_none (by omega), Array.getElem?_eq_none (by omega)]

theorem renumber_ofLines (order : List Nat) (lines : List (List (Nat × α))) :
    (⟨(Compressed.ofLines lines).start, ((keys lines.flatten).map order.idxOf).toArray,
      (Compressed.ofLines lines).value⟩ : Compressed α) =
      .ofLines (lines.map (renumbered order)) := by
  have flat : (lines.map (renumbered order)).flatten =
      lines.flatten.map fun e => (order.idxOf e.1, e.2) := List.map_flatten.symm
  have index : (Compressed.ofLines (lines.map (renumbered order))).index =
      ((keys lines.flatten).map order.idxOf).toArray := by
    rw [Compressed.index_ofLines, flat]
    unfold keys
    rw [List.map_map, List.map_map]
    rfl
  have value : (Compressed.ofLines (lines.map (renumbered order))).value =
      (Compressed.ofLines lines).value := by
    rw [Compressed.value_ofLines, Compressed.value_ofLines, flat, List.map_map]
    rfl
  rw [← start_map_ofLines (renumbered order) (by simp [renumbered]) lines, ← index, ← value]

theorem toStages_ofStages (h : Triangular m all) (full : m ≤ all.length) :
    (ofStages m all).toStages = .ok (numbered m all) := by
  have lines : ∀ st ∈ all, (∀ i ∈ keys st.lower, i < m) ∧ ∀ j ∈ keys st.upper, j < m := by
    intro st hst
    obtain ⟨before, after, split⟩ := List.append_of_mem hst
    have fits := h before st after split
    exact ⟨fun i hi => (fits.lower i hi).1, fun j hj => (fits.upper j hj).1⟩
  have insideLower : ∀ i ∈ keys (all.map Stage.lower).flatten, i < m := by
    intro i hi
    obtain ⟨e, he, rfl⟩ := List.mem_map.mp hi
    obtain ⟨_, member, here⟩ := List.mem_flatten.mp he
    obtain ⟨st, hst, rfl⟩ := List.mem_map.mp member
    exact (lines st hst).1 e.1 (List.mem_map_of_mem here)
  have insideUpper : ∀ j ∈ keys (all.map Stage.upper).flatten, j < m := by
    intro j hj
    obtain ⟨e, he, rfl⟩ := List.mem_map.mp hj
    obtain ⟨_, member, here⟩ := List.mem_flatten.mp he
    obtain ⟨st, hst, rfl⟩ := List.mem_map.mp member
    exact (lines st hst).2 e.1 (List.mem_map_of_mem here)
  have lower := stagesOf_eq (h.rows_perm full) insideLower
  have upper := stagesOf_eq (h.cols_perm full) insideUpper
  have lowerLines := renumber_ofLines (all.map Stage.row) (all.map Stage.lower)
  have upperLines := renumber_ofLines (all.map Stage.col) (all.map Stage.upper)
  rw [List.map_map (l := all)] at lowerLines upperLines
  unfold toStages ofStages
  dsimp only
  rw [Compressed.index_ofLines, Compressed.index_ofLines, lower, checked_ok_bind, upper,
    checked_ok_bind]
  exact congrArg₂ (fun lower upper => Except.ok { ofStages m all with lower, upper })
    lowerLines upperLines

end Factors

namespace SparseFactorization

variable {α : Type} [Scalar α] {s t : SparseFactorization α} {m : Nat} {v w : ActiveView α}
  {stages all : List (Stage α)} {ρ : Rules α} {p : Point α}

/-! ### Finishing -/

theorem finishFactors_run (factors : s.factors = .ofStages m all) (dimension : s.dimension = m)
    (triangular : Triangular m all) : finishFactors s =
      if m ≤ all.length then .ok () { s with
        factors := .numbered m all
        counters := { s.counters with
          lowerCount := s.factors.lower.count, upperCount := s.factors.upper.count } }
      else .error (.status .singular) { s with
        counters := { s.counters with
          lowerCount := s.factors.lower.count, upperCount := s.factors.upper.count } } := by
  unfold finishFactors
  rw [get_bind, bind_of_ok (updateCounters_run _)]
  have rank : s.rank = all.length := by
    unfold rank
    rw [factors, Factors.rank_ofStages]
  by_cases full : m ≤ all.length
  · rw [if_pos full, if_pos (by omega), factors, Factors.toStages_ofStages triangular full,
      lift_ok_bind]
    rfl
  · rw [if_neg full, if_neg (by omega)]
    rfl

/-- What a factorization leaves that has found all pivots. -/
def Complete (s : SparseFactorization α) (m : Nat) (stages : List (Stage α)) (v : ActiveView α)
    (t : SparseFactorization α) : Prop :=
  t.setup = s.setup ∧ t.workspace.Ready m ∧ t.active.colMax.size = m ∧
    ∃ all, t.factors = .numbered m all ∧ m ≤ all.length ∧ Split s m stages v all

/-- What a factorization leaves that has not found all pivots. -/
def Deficient (s : SparseFactorization α) (m : Nat) (stages : List (Stage α)) (v : ActiveView α)
    (t : SparseFactorization α) : Prop :=
  t.setup = s.setup ∧ t.workspace.Ready m ∧ t.active.colMax.size = m ∧
    ∃ all, t.factors = .ofStages m all ∧ all.length < m ∧ Split s m stages v all

/-- A factorization runs along the course up to the point where its loop closes. -/
theorem factorizeLoaded_leads : ∃ q rest,
    Leads ρ m p factorizeLoaded q (rest >>= fun _ => finishFactors) ∧ Closing ρ m q rest := by
  obtain ⟨r, cascades⟩ := @singletons_leads _ _ m ρ p
  obtain ⟨q, rest, loop, closing⟩ := @pivotLoop_leads _ _ m ρ r (m - r.stages.length) (by omega)
  let started (seen : Nat) : Action (SparseFactorization α) Unit := do
    singletons
    let seen ← logCompressions seen
    let s ← get
    pivotLoop (s.dimension - s.rank) seen
    finishFactors
  refine ⟨q, rest, .any (fun s here => ⟨s.compressions, s, here, rfl, rfl⟩)
    (fun seen => (?_ : Leads ρ m p (started seen) _ _)) (cascades.onward.trans (loop 0).onward), closing⟩
  refine cascades.andThen (logCompressions_leads seen fun seen => ?_)
  refine (Leads.here fun s here => ?_).trans ((loop seen).bind fun _ => finishFactors)
  have rank : s.rank = r.stages.length := by
    unfold SparseFactorization.rank
    rw [here.working.factors, Factors.rank_ofStages]
  rw [get_bind, here.working.dimension, rank]

theorem factorizeLoaded_ends [LawfulCounts α] (h : Working s m stages v) (triangular : Triangular m stages) :
    Ends (fun _ t => Complete s m stages v t)
      (fun e t => Exhausted s m stages e t ∨ e = .singular ∧ Deficient s m stages v t)
      (factorizeLoaded s) := by
  obtain ⟨q, rest, leads, closing⟩ := @factorizeLoaded_leads _ _ m s.rules ⟨stages, v, s.tallies⟩
  obtain ⟨more, eq, chain⟩ := leads.onward
  refine leads.ends_of h.at (fun t there kept => ?_)
    fun _ _ low _ stuck => .inl (stuck.exhausted_of_prefix low)
  have pivoted : Triangular m q.stages := eq ▸ chain.triangular triangular
  refine ((closing.ends there pivoted).mono (fun _ _ => id)
    fun e u failed => .inl (Exhausted.trans (eq ▸ failed) kept)).bind ?_
  rintro _ u ⟨setup, ready, size, all, factors, split⟩
  have whole : Split s m stages v all := Split.prepend chain kept (eq ▸ split)
  have run := finishFactors_run factors
    ((dimension_of_setup (setup.trans kept)).trans h.dimension) (split.triangular pivoted)
  rw [run]
  split
  · rename_i full
    exact ⟨setup.trans kept, ready, size, all, rfl, full, whole⟩
  · rename_i short
    exact .inr ⟨rfl, setup.trans kept, ready, size, all, factors, by omega, whole⟩

/-! ### Phases -/

/-- The view of a matrix with the given columns. -/
structure Initial (m : Nat) (columns : List (List (Nat × α)))
    (v : ActiveView α) : Prop where
  cols : ∀ j < m, v.cols j = columns.getD j []
  known : v.MaxKnown m []
  aside : v.AsideFilled m

/-- Between calls the workspace and the maxima belong to the dimension. -/
structure Prepared (s : SparseFactorization α) : Prop where
  workspace : s.workspace.Ready s.dimension
  sized : s.active.colMax.size = s.dimension
  addressable : 2 * s.dimension + 2 ≤ addressableWords

/-- A basis with the given columns is loaded. -/
structure Loaded (s : SparseFactorization α)
    (columns : List (List (Nat × α))) : Prop where
  phase : s.phase = .loaded
  pending : s.pending = none
  etas : s.etas = .empty
  threshold : s.sparseThreshold = 0
  addressable : 2 * s.dimension + 2 ≤ addressableWords
  working : ∃ v stages w, Initial s.dimension columns v ∧
    Pivoting s.options.zeroTolerance s.dimension [] v stages w ∧ Working s s.dimension stages w

/-- Stages that a search with the given options finds in the matrix with the given columns. -/
def Derived (o : Options α) (m : Nat) (columns : List (List (Nat × α))) (all : List (Stage α)) :
    Prop :=
  ∃ (s : SparseFactorization α) (v : ActiveView α) (share : α), s.options = o ∧
    s.relativeTolerance = Scalar.clamp share Scalar.minPositive 1 ∧ Initial m columns v ∧
    Split s m [] v all

theorem Derived.triangular {o : Options α} {columns : List (List (Nat × α))}
    (h : Derived o m columns all) : Triangular m all := by
  obtain ⟨s, v, share, -, -, -, split⟩ := h
  exact split.triangular .nil

/-- The stages of a basis with the given columns are found, all of them, and numbered. -/
structure Factorized (s : SparseFactorization α) (columns : List (List (Nat × α)))
    (all : List (Stage α)) : Prop where
  phase : s.phase = .factorized
  factors : s.factors = .numbered s.dimension all
  full : s.dimension ≤ all.length
  derived : Derived s.options s.dimension columns all
  etas : s.etas = .empty
  threshold : s.sparseThreshold = 0

/-- Some stages of a basis with the given columns are found, and nothing else. -/
structure Singular (s : SparseFactorization α) (columns : List (List (Nat × α)))
    (all : List (Stage α)) : Prop where
  factors : s.factors = .ofStages s.dimension all
  short : all.length < s.dimension
  derived : Derived s.options s.dimension columns all

/-- The pivots of the stages are noted, in their order and by rows and columns. -/
structure Records (f : Factors α) (m : Nat) (stages : List (Stage α)) : Prop where
  rows : f.pivotRows = (stages.map Stage.row).toArray
  cols : f.pivotCols = (stages.map Stage.col).toArray
  stageOfRow : f.stageOfRow = (Array.range m).map fun i => (stages.map Stage.row).idxOf? i
  stageOfCol : f.stageOfCol = (Array.range m).map fun j => (stages.map Stage.col).idxOf? j

/-- The pivots found so far are noted. -/
def Recorded (s : SparseFactorization α) : Prop :=
  ∃ stages, Distinct s.dimension stages ∧ Records s.factors s.dimension stages

theorem records_ofStages (m : Nat) (stages : List (Stage α)) :
    Records (.ofStages m stages) m stages := ⟨rfl, rfl, rfl, rfl⟩

theorem records_numbered (m : Nat) (stages : List (Stage α)) :
    Records (.numbered m stages) m stages := ⟨rfl, rfl, rfl, rfl⟩

theorem recorded_of_stages (distinct : Distinct m stages) (dimension : s.dimension = m)
    (factors : s.factors = .ofStages m stages) : Recorded s := by
  subst dimension
  exact ⟨stages, distinct, factors ▸ records_ofStages _ _⟩

theorem distinct_of_triangular (h : Triangular m all) : Distinct m all where
  rows := h.nodup_rows
  cols := h.nodup_cols
  insideRows := fun _ => h.row_lt
  insideCols := fun _ => h.col_lt

theorem Singular.recorded {columns : List (List (Nat × α))} (h : Singular s columns all) :
    Recorded s :=
  ⟨all, distinct_of_triangular h.derived.triangular, h.factors ▸ records_ofStages _ _⟩

/-- The state in which the search for pivots begins. -/
def begun (s : SparseFactorization α) (context : Context α) : SparseFactorization α :=
  { s with
    logTarget := context.target
    pending := none
    absoluteTolerance := s.options.absolutePivotTolerance
    relativeTolerance :=
      Scalar.clamp (context.pivotTolerance s.options.pivotShare) Scalar.minPositive 1
    phase := .idle }

theorem Underway.begun (h : Underway s m stages v) (context : Context α) :
    Underway (s.begun context) m stages v :=
  { dimension := h.dimension
    factors := h.factors
    active := h.active
    consistent := h.consistent
    distinctRows := h.distinctRows
    distinctCols := h.distinctCols
    insideRows := h.insideRows
    insideCols := h.insideCols
    addressable := h.addressable
    contained := h.contained.congr rfl rfl }

theorem Working.begun (h : Working s m stages v) (context : Context α) :
    Working (s.begun context) m stages v :=
  (h.underway.begun context).working h.workspace h.roomy

section Loaded

variable {columns : List (List (Nat × α))} {context : Context α}

theorem Loaded.prepared (h : Loaded s columns) (setup : t.setup = (s.begun context).setup)
    (ready : t.workspace.Ready s.dimension) (size : t.active.colMax.size = s.dimension) :
    Prepared t ∧ t.options = s.options ∧ t.dimension = s.dimension := by
  have dimension : t.dimension = s.dimension := dimension_of_setup (s := s.begun context) setup
  refine ⟨⟨?_, ?_, ?_⟩, options_of_setup (s := s.begun context) setup, dimension⟩
  · rw [dimension]
    exact ready
  · rw [dimension]
    exact size
  · rw [dimension]
    exact h.addressable

theorem Split.derived (split : Split (s.begun context) s.dimension stages w all)
    (initial : Initial s.dimension columns v)
    (chain : Pivoting s.options.zeroTolerance s.dimension [] v stages w) :
    Derived s.options s.dimension columns all :=
  ⟨s.begun context, v, _, rfl, rfl, initial, split.prepend chain rfl⟩

theorem Complete.factorized (h : Loaded s columns) (initial : Initial s.dimension columns v)
    (chain : Pivoting s.options.zeroTolerance s.dimension [] v stages w)
    (complete : Complete (s.begun context) s.dimension stages w t) :
    (Prepared t ∧ t.options = s.options ∧ t.dimension = s.dimension) ∧
      ∃ all, Factorized { t with phase := .factorized } columns all := by
  obtain ⟨setup, ready, size, all, factors, full, split⟩ := complete
  obtain ⟨ok, options, dimension⟩ := h.prepared setup ready size
  have etas : t.etas = (s.begun context).etas := congrArg (·.etas) setup
  have threshold : t.sparseThreshold = (s.begun context).sparseThreshold :=
    congrArg (·.sparseThreshold) setup
  have derived := split.derived initial chain
  rw [← options, ← dimension] at derived
  exact ⟨⟨ok, options, dimension⟩, all,
    { phase := rfl
      factors := factors.trans (by rw [← dimension])
      full := dimension.trans_le full
      derived
      etas := etas.trans h.etas
      threshold := threshold.trans h.threshold }⟩

theorem Deficient.singular (h : Loaded s columns) (initial : Initial s.dimension columns v)
    (chain : Pivoting s.options.zeroTolerance s.dimension [] v stages w)
    (deficient : Deficient (s.begun context) s.dimension stages w t) :
    (Prepared t ∧ t.options = s.options ∧ t.dimension = s.dimension) ∧ t.phase = .idle ∧
      ∃ all, Singular t columns all := by
  obtain ⟨setup, ready, size, all, factors, short, split⟩ := deficient
  obtain ⟨ok, options, dimension⟩ := h.prepared setup ready size
  have derived := split.derived initial chain
  rw [← options, ← dimension] at derived
  exact ⟨⟨ok, options, dimension⟩, congrArg (·.phase) setup, all,
    { factors := factors.trans (by rw [← dimension])
      short := short.trans_eq dimension.symm
      derived }⟩

theorem factor_ends [LawfulCounts α] (h : Loaded s columns) (context : Context α) :
    Ends (fun _ t => Prepared t ∧ t.options = s.options ∧ t.dimension = s.dimension ∧
        ∃ all, Factorized t columns all)
      (fun e t => Prepared t ∧ t.options = s.options ∧ t.dimension = s.dimension ∧
        t.phase = .idle ∧
        (e = .outOfMemory ∧ Recorded t ∨ e = .singular ∧ ∃ all, Singular t columns all))
      (factor context s) := by
  obtain ⟨v, stages, w, initial, chain, working⟩ := h.working
  have search := (factorizeLoaded_ends (working.begun context) (chain.triangular .nil)).attempt
  unfold factor
  rw [modify_bind, get_bind, h.pending]
  dsimp only
  rw [get_bind, if_neg (by simp [h.phase]), modify_bind]
  change Ends _ _ ((Action.attempt factorizeLoaded >>= _) (s.begun context))
  refine (search.mono (fun _ _ => id) fun _ _ => False.elim).bind ?_
  intro outcome t ending
  rw [modify_bind, get_bind]
  -- what follows the search writes the journal, which no part of the result is about
  rcases ending with ⟨_, rfl, complete⟩ |
    ⟨e, rfl, ⟨rest, rfl, setup, ready, size, distinct, factors⟩ | ⟨rfl, deficient⟩⟩
  · obtain ⟨⟨ok, options, dimension⟩, all, factorized⟩ := complete.factorized h initial chain
    dsimp only
    rw [get_bind, bind_of_ok (log_run _ _)]
    exact ⟨⟨ok.workspace, ok.sized, ok.addressable⟩, options, dimension, all,
      { factorized with }⟩
  · obtain ⟨ok, options, dimension⟩ := h.prepared setup ready size
    dsimp only
    rw [bind_of_ok (log_run _ _)]
    exact ⟨⟨ok.workspace, ok.sized, ok.addressable⟩, options, dimension,
      congrArg (·.phase) setup, .inl ⟨rfl, recorded_of_stages distinct dimension factors⟩⟩
  · obtain ⟨⟨ok, options, dimension⟩, idle, all, singular⟩ := deficient.singular h initial chain
    dsimp only
    rw [get_bind, bind_of_ok (log_run _ _)]
    exact ⟨⟨ok.workspace, ok.sized, ok.addressable⟩, options, dimension, idle,
      .inr ⟨rfl, all, { singular with }⟩⟩

end Loaded

/-! ### Stages of an exact matrix -/

section Exact

variable {s : SparseFactorization ℚ} {v : ActiveView ℚ} {all : List (Stage ℚ)}
  {columns : List (List (Nat × ℚ))}

/-- The entry in row `i` of column `j`. -/
def entryOf {α : Type} [Scalar α] (columns : List (List (Nat × α))) (i j : Nat) : α :=
  valueAt (columns.getD j []) i

/-- Columns without stored zeros. -/
def NoZeros (columns : List (List (Nat × ℚ))) : Prop := ∀ column ∈ columns, ∀ e ∈ column, e.2 ≠ 0

/-- Stages found in the matrix with the given columns, where nothing above the tolerance was dropped.
They need not be all stages, but nothing is left behind them when the tolerance is zero. -/
structure Pivoted (tolerance : ℚ) (m : Nat) (columns : List (List (Nat × ℚ)))
    (all : List (Stage ℚ)) : Prop where
  triangular : Triangular m all
  nonzero : 0 ≤ tolerance → NoZeros columns → ∀ st ∈ all, st.pivot ≠ 0
  accounts : 0 ≤ tolerance → (∀ st ∈ all, st.pivot ≠ 0) → m ≤ all.length →
    Accounts tolerance (entryOf columns) m all fun _ _ => 0
  exhaustive : tolerance = 0 → NoZeros columns →
    Accounts tolerance (entryOf columns) m all fun _ _ => 0

theorem Initial.nonzero (h : Initial m columns v)
    (entries : NoZeros columns) : v.Nonzero m := by
  intro j hj e he
  rw [h.cols j hj] at he
  by_cases inside : j < columns.length
  · have read : columns.getD j [] = columns[j] := by simp [inside]
    rw [read] at he
    exact entries _ (List.getElem_mem inside) e he
  · have read : columns.getD j [] = [] := by simp [Nat.le_of_not_lt inside]
    rw [read] at he
    simp at he

theorem Split.pivoted (h : Split s m [] v all)
    (initial : Initial m columns v) (share : s.relativeTolerance ≤ 1) :
    Pivoted s.options.zeroTolerance m columns all := by
  have balance : Accounts s.options.zeroTolerance (entryOf columns) m [] v.value := by
    intro i hi j hj
    have same : entryOf columns i j = v.value i j := by
      unfold entryOf ActiveView.value
      rw [initial.cols j hj]
    simp [same, productAt, reductionsAt]
  exact
    { triangular := h.triangular .nil
      nonzero := fun nonneg entries => h.nonzero nonneg (initial.nonzero entries) (by simp)
      accounts := fun nonneg pivots full => h.accounts .nil nonneg pivots balance full
      exhaustive := fun exact_ entries => h.accounts_exact .nil exact_ share
        (initial.nonzero entries) initial.known balance }

theorem clamp_le (x : ℚ) {low high : ℚ} (ordered : low ≤ high) :
    Scalar.clamp x low high ≤ high := by
  unfold Scalar.clamp
  split
  · exact ordered
  · split
    · exact le_rfl
    · exact not_lt.mp ‹_›

theorem mkRat_one_le (n : Nat) : mkRat 1 n ≤ 1 := by
  rw [Rat.mkRat_eq_div]
  rcases Nat.eq_zero_or_pos n with rfl | pos
  · simp
  · have : (1 : ℚ) ≤ n := by exact_mod_cast pos
    simpa using inv_le_one_of_one_le₀ this

theorem minPositive_le_one : (Scalar.minPositive : ℚ) ≤ 1 := mkRat_one_le _

theorem Derived.pivoted {o : Options ℚ} (h : Derived o m columns all) :
    Pivoted o.zeroTolerance m columns all := by
  obtain ⟨s, v, share, rfl, relative, initial, split⟩ := h
  exact split.pivoted initial (relative.trans_le (clamp_le _ minPositive_le_one))

theorem Factorized.pivoted (h : Factorized s columns all) :
    Pivoted s.options.zeroTolerance s.dimension columns all := h.derived.pivoted

theorem Singular.pivoted (h : Singular s columns all) :
    Pivoted s.options.zeroTolerance s.dimension columns all := h.derived.pivoted

end Exact

end SparseFactorization

end SimplexBasis
