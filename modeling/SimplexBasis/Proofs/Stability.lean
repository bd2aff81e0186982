import SimplexBasis.Proofs.Safety
import SimplexBasis.Proofs.Sparse.Cheapest
import SimplexBasis.Proofs.Sparse.Exhaustion
import SimplexBasis.Proofs.Sparse.SlackColumns

/-!
# Stability

How large pivots and multipliers are. The search takes an entry for its share of the known maximum
of its column, and that maximum is the largest magnitude in the column (`MaxKnown`), so that no
multiplier exceeds the reciprocal of the share. A stage behind the slack columns and the singletons
belongs to the search that has found it, in the order of the searches, or to the dense block.
-/

set_option linter.unusedSectionVars false

namespace SimplexBasis

variable {m i j k : Nat} {x : ℚ} {v w : ActiveView ℚ} {rule : SearchRule ℚ}

/-! ### Stored stages -/

namespace Factors

/-- Stage `k` has the pivot `x` in row `i` and column `j`, and the given multipliers. -/
structure Stores (f : Factors ℚ) (k i j : Nat) (x : ℚ) (multipliers : List ℚ) : Prop where
  row : f.pivotRows[k]? = some i
  col : f.pivotCols[k]? = some j
  inverse : f.inverses[k]? = some (1 / x)
  lower : ∃ entries, f.lower.line k = .ok entries ∧ entries.map Prod.snd = multipliers

variable {stages : List (Stage ℚ)} {st : Stage ℚ} {f : Factors ℚ}

theorem stores_of_lines {lines : List (List (Nat × ℚ))}
    (records : SparseFactorization.Records f m stages)
    (inverses : f.inverses = (stages.map fun st => 1 / st.pivot).toArray)
    (lower : f.lower = .ofLines lines)
    (values : lines.map (List.map Prod.snd) = stages.map fun st => st.lower.map Prod.snd)
    (here : stages[k]? = some st) :
    f.Stores k st.row st.col st.pivot (st.lower.map Prod.snd) where
  row := by simp [records.rows, here]
  col := by simp [records.cols, here]
  inverse := by simp [inverses, here]
  lower := by
    have value := congrArg (·[k]?) values
    simp only [List.getElem?_map, here, Option.map_some, Option.map_eq_some_iff] at value
    obtain ⟨entries, line, same⟩ := value
    obtain ⟨inside, rfl⟩ := List.getElem?_eq_some_iff.mp line
    exact ⟨_, lower ▸ Compressed.line_ofLines lines k inside, same⟩

theorem stores_ofStages (here : stages[k]? = some st) :
    (ofStages m stages).Stores k st.row st.col st.pivot (st.lower.map Prod.snd) :=
  stores_of_lines (SparseFactorization.records_ofStages m stages) rfl rfl (by simp) here

theorem stores_numbered (here : stages[k]? = some st) :
    (numbered m stages).Stores k st.row st.col st.pivot (st.lower.map Prod.snd) :=
  stores_of_lines (SparseFactorization.records_numbered m stages) rfl rfl (by simp [renumbered]) here

end Factors

/-! ### Bounds of a stage -/

/-- The pivot has at least the magnitude `least`, and no multiplier exceeds `most`. -/
structure Stage.Within (st : Stage ℚ) (least most : ℚ) : Prop where
  pivot : least ≤ |st.pivot|
  multipliers : ∀ e ∈ st.lower, |e.2| ≤ most

/-- The share of an eligible entry in its column bounds what its column is divided by. -/
theorem Eligible.within (eligible : Eligible rule v i j) (distinct : (keys (v.cols j)).Nodup)
    (known : v.maximum j = largestOf (v.cols j)) (positive : 0 < rule.relativeTolerance)
    (member : (i, x) ∈ v.cols j) :
    (v.stageAt i j x).Within rule.absoluteTolerance (1 / rule.relativeTolerance) := by
  obtain ⟨y, same, nonzero, absolute, share⟩ := eligible
  obtain rfl : y = x := (valueAt_of_mem distinct same).symm.trans (valueAt_of_mem distinct member)
  refine ⟨absolute, fun e he => ?_⟩
  obtain ⟨f, inside, rfl⟩ := List.mem_map.mp he
  -- No entry exceeds the maximum, of which the pivot is a share.
  have below : |f.2| ≤ v.maximum j :=
    (le_largestOf (List.mem_filter.mp inside).1).trans_eq known.symm
  rw [abs_div, div_le_div_iff₀ (abs_pos.mpr nonzero) positive, one_mul, mul_comm]
  exact (mul_le_mul_of_nonneg_left below positive.le).trans share

/-- The rule of a search, or of its repetition. -/
def Rules.used (ρ : Rules ℚ) (again : Bool) : SearchRule ℚ :=
  (if again then ρ.relaxed else ρ).searchRule

theorem Rules.used_positive {ρ : Rules ℚ} (share : 0 < ρ.relativeTolerance)
    (relaxed : 0 < ρ.options.relaxedPivotTolerance) (again : Bool) :
    0 < (ρ.used again).relativeTolerance := by
  cases again
  · exact share
  · change 0 < Scalar.min _ _
    rw [scalar_min]
    exact lt_min relaxed share

namespace SparseFactorization

variable {s t u h : SparseFactorization ℚ} {stages more front block : List (Stage ℚ)}
  {st : Stage ℚ} {ρ : Rules ℚ} {remaining seen : Nat}

/-! ### What a search has found -/

theorem Working.searchPivot_eligible (h : Working s m stages v)
    (known : v.MaxKnown m (stages.map Stage.col)) (positive : 0 < s.relativeTolerance)
    (run : searchPivot s = .ok (.ok (some (i, j))) t) :
    j < m ∧ Eligible s.rules.searchRule v i j := by
  have dimension := h.dimension
  subst dimension
  exact SparseFactorization.searchPivot_eligible h.active h.consistent known positive run

theorem Working.relaxedSearch_eligible (h : Working s m stages v)
    (known : v.MaxKnown m (stages.map Stage.col)) (share : 0 < s.relativeTolerance)
    (relaxed : 0 < s.options.relaxedPivotTolerance)
    (run : relaxedSearch s = .ok (some (i, j)) t) :
    j < m ∧ Eligible s.rules.relaxed.searchRule v i j := by
  -- The rows set aside are listed again first, which changes no entry: the maxima stay known.
  obtain ⟨q, restored, -, -⟩ := @restoreRejected_passes _ _ m s.rules ⟨stages, v, s.tallies⟩
    h.consistent
  obtain ⟨u, first, there, -⟩ := restored.runs s h.at
  have working := there.working.withTolerances u.options.zeroTolerance
    (Scalar.min u.options.relaxedPivotTolerance u.relativeTolerance)
  have rules : (u.withTolerances u.options.zeroTolerance
      (Scalar.min u.options.relaxedPivotTolerance u.relativeTolerance)).rules = s.rules.relaxed :=
    congrArg Rules.relaxed there.rules
  unfold relaxedSearch at run
  rw [bind_of_ok first, get_bind, modify_bind] at run
  obtain ⟨answer, w, search, run⟩ := ok_of_bind run
  rw [modify_bind] at run
  rcases answer with e | _ | pivot
  · obtain ⟨_, _, -, ⟨⟩⟩ := ok_of_bind run
  · obtain ⟨_, _, -, ⟨⟩⟩ := ok_of_bind run
  · cases run
    have known' : q.view.MaxKnown m (q.stages.map Stage.col) := by
      rw [restored.stages]
      exact restored.same.maxKnown known
    have positive : 0 < s.rules.relaxed.relativeTolerance :=
      @Rules.used_positive s.rules share relaxed true
    have found := working.searchPivot_eligible known'
      (positive.trans_eq (congrArg (·.relativeTolerance) rules).symm) (by exact search)
    rwa [rules, eligible_of_same restored.same] at found

theorem Working.findPivot_eligible (h : Working s m stages v)
    (known : v.MaxKnown m (stages.map Stage.col)) (share : 0 < s.relativeTolerance)
    (relaxed : 0 < s.options.relaxedPivotTolerance)
    (run : findPivot s = .ok (some (i, j)) t) :
    j < m ∧ Eligible (s.rules.used (relaxes s)) v i j := by
  by_cases again : relaxes s = true
  · obtain ⟨i', j', e, t', u, run', search, repeated⟩ := of_relaxes again
    cases run.symm.trans run'
    obtain ⟨answer, q, passes, -, -⟩ := @searchPivot_passes _ _ m s.rules ⟨stages, v, s.tallies⟩
      h.consistent
    obtain ⟨u', run', there, setup⟩ := passes.runs s h.at
    cases search.symm.trans run'
    have found := there.working.relaxedSearch_eligible
      (by rw [passes.stages]; exact passes.same.maxKnown known)
      (share.trans_eq (congrArg (·.relativeTolerance) there.rules).symm)
      (relaxed.trans_eq (congrArg (·.relaxedPivotTolerance) (options_of_setup setup)).symm) repeated
    rw [there.rules, eligible_of_same passes.same] at found
    rwa [again]
  · rw [Bool.eq_false_of_not_eq_true again]
    exact h.searchPivot_eligible known share (of_not_relaxes run again)

/-! ### The stages of the loop -/

/-- The search in `h` finds the pivot of stage `k`, which keeps to the rule of that search. -/
structure FoundBy (ρ : Rules ℚ) (h : SparseFactorization ℚ) (k : Nat) (st : Stage ℚ) : Prop where
  rank : h.rank = k
  found : ∃ u, findPivot h = .ok (some (st.row, st.col)) u
  within : st.Within (ρ.used (relaxes h)).absoluteTolerance
    (1 / (ρ.used (relaxes h)).relativeTolerance)

theorem Turned.foundBy (turned : Turned t m front v i j x w u) (h : Working t m front v)
    (known : v.MaxKnown m (front.map Stage.col)) (share : 0 < t.relativeTolerance)
    (relaxed : 0 < t.options.relaxedPivotTolerance) :
    FoundBy t.rules t front.length (v.stageAt i j x) where
  rank := by rw [rank, h.factors, Factors.rank_ofStages]
  found := turned.found
  within := by
    obtain ⟨q, run⟩ := turned.found
    obtain ⟨hj, eligible⟩ := h.findPivot_eligible known share relaxed run
    have free := (eligible.col_open h.consistent hj).1
    exact eligible.within (h.consistent.distinctCols j hj) (known.maximum_eq hj free)
      (@Rules.used_positive t.rules share relaxed _) turned.member

/-- What a loop that searches in the states `states` appends: the stages `more` of the searches, and
those of a dense block. -/
structure Appended (t : SparseFactorization ℚ) (m : Nat) (front : List (Stage ℚ))
    (states : List (SparseFactorization ℚ)) (more block : List (Stage ℚ))
    (u : SparseFactorization ℚ) : Prop where
  factors : u.factors = .ofStages m (front ++ (more ++ block))
  triangular : Triangular m (front ++ (more ++ block))
  setup : u.setup = t.setup
  searched : ∀ n st, more[n]? = some st →
    ∃ h, states[n]? = some h ∧ FoundBy t.rules h (front.length + n) st
  bounded : ∀ st ∈ block, t.options.zeroTolerance < |st.pivot| ∧ ∀ e ∈ st.lower, |e.2| ≤ 1
  counted : block = [] ∧ t.tallies.SamePivots u.tallies ∨
    { t.tallies with denseSize := m - (front.length + more.length) }.SamePivots u.tallies

theorem Appended.cons {states : List (SparseFactorization ℚ)} {q : SparseFactorization ℚ}
    (first : FoundBy t.rules t front.length st) (setup : q.setup = t.setup)
    (counted : t.tallies.SamePivots q.tallies)
    (rest : Appended q m (front ++ [st]) states more block u) :
    Appended t m front (t :: states) (st :: more) block u where
  factors := by simpa using rest.factors
  triangular := by simpa using rest.triangular
  setup := rest.setup.trans setup
  searched n st' here := by
    cases n with
    | zero =>
      cases here
      exact ⟨t, rfl, first⟩
    | succ n =>
      obtain ⟨h, listed, found⟩ := rest.searched n st' here
      rw [rules_of_setup setup, List.length_append, List.length_singleton, Nat.add_assoc,
        Nat.add_comm 1] at found
      exact ⟨h, listed, found⟩
  bounded := options_of_setup setup ▸ rest.bounded
  counted := by
    refine rest.counted.imp (And.imp_right counted.trans) fun size => ?_
    rw [List.length_append, List.length_singleton, Nat.add_assoc, Nat.add_comm 1] at size
    unfold Tallies.SamePivots at counted size ⊢
    rw [counted] at size
    exact size

theorem Working.appended_nil {states : List (SparseFactorization ℚ)} (h : Working u m front v)
    (before : Triangular m front) (setup : u.setup = t.setup)
    (counted : t.tallies.SamePivots u.tallies) : Appended t m front states [] [] u where
  factors := by simpa using h.factors
  triangular := by simpa using before
  setup := setup
  searched := by simp
  bounded := by simp
  counted := .inl ⟨rfl, counted⟩

theorem Working.factorizeBlock_appended {states : List (SparseFactorization ℚ)}
    (h : Working t m front v) (before : Triangular m front)
    (small : (m - front.length) * (m - front.length) < UInt64.size)
    (nonneg : 0 ≤ t.options.zeroTolerance) :
    Ends (fun _ u => ∃ block, Appended t m front states [] block u) (fun e _ => e = .outOfMemory)
      (SparseFactorization.factorizeBlock t) := by
  refine (h.factorizeBlock before small).mono ?_ fun _ _ stuck => stuck.1
  rintro _ u ⟨⟨setup, -, -, block, blocked, factors⟩, range, flops, counters⟩
  have size : { t.tallies with denseSize := m - front.length }.SamePivots u.tallies := by
    unfold Tallies.SamePivots tallies
    rw [counters]
  exact ⟨_,
    { factors := factors
      triangular := blocked.triangular before
      setup := setup
      searched := by simp
      bounded := blocked.bounded nonneg
      counted := .inr size }⟩

/-- Each turn appends the stage of its search, and the last one may append a dense block. -/
theorem Working.pivotLoop_appended (h : Working t m front v) (before : Triangular m front)
    (known : v.MaxKnown m (front.map Stage.col)) (share : 0 < t.relativeTolerance)
    (relaxed : 0 < t.options.relaxedPivotTolerance) (nonneg : 0 ≤ t.options.zeroTolerance) :
    Ends (fun _ u => ∃ more block, Appended t m front (searches remaining seen t) more block u)
      (fun e _ => e = .outOfMemory) (pivotLoop remaining seen t) := by
  induction remaining generalizing t front v seen with
  | zero => exact ⟨[], [], h.appended_nil before rfl rfl⟩
  | succ remaining ih =>
    have due := h.at.denseBlockDue_eq
    cases dense : Point.dense t.rules m ⟨front, v, t.tallies⟩ with
    | true =>
      unfold pivotLoop
      rw [get_bind, due, dense, lift_ok_bind, if_pos rfl]
      exact (h.factorizeBlock_appended before (h.at.small_of_dense dense) nonneg).mono
        (fun _ _ appended => ⟨[], appended⟩) fun _ _ => id
    | false =>
      rw [dense] at due
      rw [pivotLoop_turn due, searches, due]
      have ends := h.turn seen
      cases turned : SparseFactorization.turn seen t with
      | error stop q =>
        rw [bind_of_error turned]
        rw [turned] at ends
        cases stop with
        | breach b => exact ends
        | status e => exact ends.1
      | ok found q =>
        rw [bind_of_ok turned]
        rw [turned] at ends
        cases found with
        | none =>
          obtain ⟨w, searched⟩ := ends
          exact ⟨[], [], searched.working.appended_nil before searched.setup searched.counted⟩
        | some seen' =>
          obtain ⟨i, j, x, w, turned⟩ := ends
          have options := options_of_setup turned.setup
          have tolerance : q.relativeTolerance = t.relativeTolerance :=
            congrArg (·.relativeTolerance) turned.setup
          -- The rules are those of the first turn, so the bounds of later stages are too.
          refine (ih turned.working (turned.chain.triangular before) (turned.chain.maxKnown known)
            (tolerance ▸ share) (options ▸ relaxed) (options ▸ nonneg)).imp ?_
          rintro _ u ⟨more, block, appended⟩
          exact ⟨_, block, appended.cons (turned.foundBy h known share relaxed) turned.setup
            turned.counted⟩

/-! ### From the basis to the factors -/

theorem Underway.cascade (h : Underway s m stages v) :
    Ends (fun _ t => ∃ more w, Shed (fun _ => True) s m stages v more w t)
      (fun e _ => e = .outOfMemory) (SparseFactorization.cascade s) := by
  unfold SparseFactorization.cascade
  rw [get_bind]
  refine (h.singletons.mono (fun _ _ => id) fun _ _ stuck => stuck.1).bind ?_
  rintro _ t ⟨_, _, first, u, mid, second, w, -, shed, shed', -, -⟩
  have both := (shed.mono fun _ _ => trivial).trans (shed'.mono fun _ _ => trivial)
  obtain ⟨seen', q, logged, frame⟩ := both.underway.logCompressions s.compressions
  have after : Shed (fun _ => True) s m stages v (first ++ second) w q := by
    rw [frame]
    exact { both with underway := both.underway.of_setup rfl rfl rfl }
  rw [logged]
  exact ⟨_, w, after⟩

theorem Shed.working {kinds : Single → Prop} (h : Shed kinds s m stages v more w t)
    (before : Working s m stages v) : Working t m (stages ++ more) w := by
  refine h.underway.working (h.workspace ▸ before.workspace) ?_
  rw [options_of_setup h.setup, capacity_of_setup h.setup]
  exact before.roomy

/-- What is known of the pivot `x` in row `i` and column `j`, stage `k` in the state `t` at the end
of a factorization from `s`, and of its multipliers. -/
structure StableStage (context : Context ℚ) (s t : SparseFactorization ℚ) (k i j : Nat) (x : ℚ)
    (multipliers : List ℚ) : Prop where
  loaded : k < t.counters.slacks → |x| = |s.options.slackValue|
  cascaded : t.counters.slacks ≤ k → k < t.counters.slacks + t.counters.singletons →
    s.options.absolutePivotTolerance ≤ |x|
  /-- Behind the singletons and before the dense block, the stages are those of the searches. -/
  searched : ∀ n, k = t.counters.slacks + t.counters.singletons + n →
    k + t.counters.denseSize < t.dimension →
    ∃ h u, (searchesOf context s)[n]? = some h ∧ h.rank = k ∧ findPivot h = .ok (some (i, j)) u ∧
      if relaxes h then s.options.zeroTolerance ≤ |x| ∧ ∀ y ∈ multipliers,
        |y| ≤ 1 / min s.options.relaxedPivotTolerance (rulesOf s.options context).relativeTolerance
      else s.options.absolutePivotTolerance ≤ |x| ∧ ∀ y ∈ multipliers,
        |y| ≤ 1 / (rulesOf s.options context).relativeTolerance
  dense : t.dimension ≤ k + t.counters.denseSize →
    s.options.zeroTolerance < |x| ∧ ∀ y ∈ multipliers, |y| ≤ 1

/-- All pivots and multipliers in `t` are as large as their origin allows, at the end of a
factorization from `s`. -/
def Stable (context : Context ℚ) (s t : SparseFactorization ℚ) : Prop :=
  ∀ k < t.rank, ∃ i j x multipliers,
    t.factors.Stores k i j x multipliers ∧ StableStage context s t k i j x multipliers

/-- The stages in the order in which they were appended, with what is known of each kind. -/
structure Arranged (context : Context ℚ) (s t : SparseFactorization ℚ)
    (slacks singletons more block : List (Stage ℚ)) : Prop where
  stored : ∀ k st, (slacks ++ singletons ++ (more ++ block))[k]? = some st →
    t.factors.Stores k st.row st.col st.pivot (st.lower.map Prod.snd)
  rank : t.rank = (slacks ++ singletons ++ (more ++ block)).length
  full : t.rank ≤ t.dimension
  slack : ∀ st ∈ slacks, |st.pivot| = |s.options.slackValue|
  large : ∀ st ∈ singletons, s.options.absolutePivotTolerance ≤ |st.pivot|
  searched : ∀ n st, more[n]? = some st → ∃ h, (searchesOf context s)[n]? = some h ∧
    FoundBy (s.begun context).rules h ((slacks ++ singletons).length + n) st
  bounded : ∀ st ∈ block, s.options.zeroTolerance < |st.pivot| ∧ ∀ e ∈ st.lower, |e.2| ≤ 1
  counted : t.counters.slacks = slacks.length ∧ t.counters.singletons = singletons.length
  size : block = [] ∧ t.counters.denseSize = 0 ∨
    t.counters.denseSize = t.dimension - ((slacks ++ singletons).length + more.length)

theorem Arranged.stable {context : Context ℚ} {slacks singletons : List (Stage ℚ)}
    (h : Arranged context s t slacks singletons more block) : Stable context s t := by
  obtain ⟨slackCount, singletonCount⟩ := h.counted
  have full := h.full
  have rank := h.rank
  have size := h.size
  intro k hk
  rw [rank] at hk
  obtain ⟨st, here⟩ : ∃ st, (slacks ++ singletons ++ (more ++ block))[k]? = some st :=
    ⟨_, List.getElem?_eq_getElem hk⟩
  refine ⟨st.row, st.col, st.pivot, _, h.stored k st here, ?_⟩
  have behind := @List.length_append _ (slacks ++ singletons) (more ++ block)
  have front := @List.length_append _ slacks singletons
  have rest := @List.length_append _ more block
  -- The counters say in which of the four lists stage `k` is.
  constructor
  case loaded =>
    intro low
    rw [List.getElem?_append_left (by omega), List.getElem?_append_left (by omega)] at here
    exact h.slack st (List.mem_of_getElem? here)
  case cascaded =>
    intro low high
    rw [List.getElem?_append_left (by omega), List.getElem?_append_right (by omega)] at here
    exact h.large st (List.mem_of_getElem? here)
  case searched =>
    intro n place before
    have inside : n < more.length := by
      rcases size with ⟨rfl, -⟩ | size
      · rw [List.length_nil] at rest
        omega
      · omega
    rw [List.getElem?_append_right (by omega), show k - (slacks ++ singletons).length = n by omega,
      List.getElem?_append_left inside] at here
    obtain ⟨q, listed, found⟩ := h.searched n st here
    obtain ⟨u, run⟩ := found.found
    refine ⟨q, u, listed, found.rank.trans (by omega), run, ?_⟩
    have within := found.within
    cases again : relaxes q <;> rw [again] at within
    · exact ⟨within.pivot, List.forall_mem_map.mpr within.multipliers⟩
    · refine ⟨within.pivot, List.forall_mem_map.mpr ?_⟩
      rw [← scalar_min]
      exact within.multipliers
  case dense =>
    intro last
    have inside : (slacks ++ singletons).length + more.length ≤ k := by
      rcases size with ⟨-, size⟩ | size <;> omega
    rw [List.getElem?_append_right (by omega), List.getElem?_append_right (by omega)] at here
    obtain ⟨large, multipliers⟩ := h.bounded st (List.mem_of_getElem? here)
    exact ⟨large, List.forall_mem_map.mpr multipliers⟩

theorem minPositive_pos : 0 < (Scalar.minPositive : ℚ) := by
  change 0 < mkRat 1 (1 <<< 1022)
  rw [Rat.mkRat_eq_div, Nat.one_shiftLeft]
  positivity

theorem clamp_pos (x : ℚ) {low high : ℚ} (positive : 0 < low) (ordered : low ≤ high) :
    0 < Scalar.clamp x low high := by
  unfold Scalar.clamp
  split
  · exact positive
  · split
    · exact positive.trans_le ordered
    · exact positive.trans_le (not_lt.mp ‹_›)

theorem Stable.of_kept {context : Context ℚ} (h : Stable context s t)
    (factors : u.factors = t.factors) (counters : u.counters = t.counters)
    (dimension : u.dimension = t.dimension) : Stable context s u := by
  intro k hk
  rw [SparseFactorization.rank, factors] at hk
  obtain ⟨i, j, x, multipliers, stores, stable⟩ := h k hk
  exact ⟨i, j, x, multipliers, factors ▸ stores,
    { loaded := counters ▸ stable.loaded
      cascaded := counters ▸ stable.cascaded
      searched := counters ▸ dimension ▸ stable.searched
      dense := counters ▸ dimension ▸ stable.dense }⟩

variable {b : BasisMatrix ℚ} {columns : List (List (Nat × ℚ))} {r q : SparseFactorization ℚ}
  {context : Context ℚ} {slacks singletons : List (Stage ℚ)}

/-- The slack columns of the load, the singletons of the cascades, the stages of the searches and
those of the dense block, in a state `q` that holds them numbered or not. -/
theorem Appended.arranged
    (appended : Appended t b.dimension (slacks ++ singletons) (searchesOf context s) more block u)
    (slacked : Slacked r b columns slacks v s)
    (shed : Shed (fun _ => True) (s.begun context) b.dimension slacks v singletons w t)
    (factors : q.factors = .ofStages b.dimension (slacks ++ singletons ++ (more ++ block)) ∨
      q.factors = .numbered b.dimension (slacks ++ singletons ++ (more ++ block)))
    (dimension : q.dimension = b.dimension) (tallies : q.tallies = u.tallies) :
    Arranged context s q slacks singletons more block := by
  have records : Records q.factors b.dimension (slacks ++ singletons ++ (more ++ block)) := by
    rcases factors with eq | eq <;> rw [eq]
    · exact records_ofStages _ _
    · exact records_numbered _ _
  have rank : q.rank = (slacks ++ singletons ++ (more ++ block)).length := by
    rw [rank, Factors.rank, records.rows, List.size_toArray, List.length_map]
  have counts : t.tallies = ⟨slacks.length, singletons.length, 0, 0, 0⟩ := by
    have begun : (s.begun context).tallies = _ := slacked.tallies
    rw [shed.tallies, begun, Nat.zero_add]
  have counted := appended.counted
  unfold Tallies.SamePivots at counted
  rw [counts, ← tallies] at counted
  exact
    { stored := fun k st here => by
        rcases factors with eq | eq <;> rw [eq]
        · exact Factors.stores_ofStages here
        · exact Factors.stores_numbered here
      rank := rank
      full := rank.trans_le (appended.triangular.length_le.trans_eq dimension.symm)
      slack := fun st member => by
        rw [slacked.options, ← scalar_abs, ← scalar_abs]
        exact beq_iff_eq.mp (slacked.slack st member)
      large := fun st member => by
        rw [← scalar_abs]
        exact not_lt.mp (shed.large st member)
      searched := fun n st here => by
        rw [← rules_of_setup shed.setup]
        exact appended.searched n st here
      bounded := by
        have bounded := appended.bounded
        rwa [options_of_setup shed.setup] at bounded
      counted := by
        rcases counted with ⟨-, same⟩ | same <;>
          exact ⟨congrArg Tallies.slacks same, congrArg Tallies.singletons same⟩
      size := by
        rw [dimension]
        exact counted.imp (And.imp_right (congrArg Tallies.denseSize)) (congrArg Tallies.denseSize) }

theorem Slacked.factorizeLoaded_stable (slacked : Slacked r b columns slacks v s)
    (spacious : r.Spacious b) (nonneg : 0 ≤ r.options.zeroTolerance)
    (relaxed : 0 < r.options.relaxedPivotTolerance) (context : Context ℚ) :
    Ends (fun _ t => Stable context s t) (fun e t => e = .singular → Stable context s t)
      (factorizeLoaded (s.begun context)) := by
  have working := (slacked.working spacious).begun context
  have share : 0 < (s.begun context).relativeTolerance :=
    clamp_pos _ minPositive_pos minPositive_le_one
  rw [factorizeLoaded_eq]
  refine (working.underway.cascade.or.noted.ends.mono (fun _ _ => id) ?_).bind ?_
  · rintro e t ⟨-, rfl⟩ ⟨⟩
  rintro seen t ⟨run, singletons, w, shed⟩
  have before := shed.working working
  have chain : Pivoting r.options.zeroTolerance b.dimension [] (.loaded b.dimension columns)
      (slacks ++ singletons) w :=
    (slacked.chain.pivoting slacked.consistent _ rfl rfl).trans
      (shed.chain.pivoting working.consistent _ (by simp) (by simp))
  -- Known after the load, the maxima are so behind every pivot since.
  have known : w.MaxKnown b.dimension ((slacks ++ singletons).map Stage.col) :=
    chain.maxKnown initial_loaded.known
  have options : t.options = r.options := (options_of_setup shed.setup).trans slacked.options
  have tolerance : t.relativeTolerance = (s.begun context).relativeTolerance :=
    congrArg (·.relativeTolerance) shed.setup
  have states : searchesOf context s = searches (t.dimension - t.rank) seen t := by
    rw [searchesOf, if_pos ⟨slacked.pending, slacked.phase⟩, run]
  rw [get_bind]
  refine ((before.pivotLoop_appended (chain.triangular .nil) known (tolerance ▸ share)
    (options ▸ relaxed) (options ▸ nonneg)).mono (fun _ _ => id) ?_).bind ?_
  · rintro e u rfl ⟨⟩
  rintro _ u ⟨more, block, appended⟩
  have dimension := (dimension_of_setup appended.setup).trans before.dimension
  rw [finishFactors_run appended.factors dimension appended.triangular]
  rw [← states] at appended
  split
  · refine Arranged.stable (appended.arranged slacked shed ?_ dimension rfl)
    exact .inr rfl
  · refine fun _ => Arranged.stable (appended.arranged slacked shed ?_ dimension rfl)
    exact .inl appended.factors

/-- Whatever came before the load of a basis, a factorization that completes or finds the basis
singular holds pivots that are not too small and multipliers that are not too large. -/
theorem factor_stable (visited : Engine.Visited (.sparse r)) (accepted : b.Accepted)
    (spacious : r.Spacious b) (nonneg : 0 ≤ r.options.zeroTolerance)
    (relaxed : 0 < r.options.relaxedPivotTolerance) (loaded : load b r = .ok () s)
    (context : Context ℚ) :
    Ends (fun _ t => Stable context s t) (fun e t => e = .singular → Stable context s t)
      (factor context s) := by
  have sound : r.Sound := visited.sound
  rcases slacked_of_load sound.prepared accepted spacious loaded with
    ⟨columns, stages, w, slacked⟩ | pending
  · rw [factor_of_loaded slacked.pending slacked.phase]
    exact Ends.conclude (slacked.factorizeLoaded_stable spacious nonneg relaxed context)
      (fun _ _ stable => stable.of_kept rfl rfl rfl)
      fun _ _ _ stable singular => (stable singular).of_kept rfl rfl rfl
  · rw [factor_of_pending pending]
    rintro ⟨⟩

/-- A slack column, a singleton, and a block in which only one entry is large. -/
def graded : BasisMatrix ℚ :=
  ⟨6, .ofLines [[(0, 2), (2, 1 / 2)], [(0, 1 / 2), (1, 1 / 2)], [(1, 1 / 2), (3, 1 / 2)],
    [(2, 1 / 2), (3, 1 / 2)], [(4, 1)], [(5, 3)]]⟩

/-- Blocks of two rows are factorized densely. -/
def blockwise : Options ℚ :=
  { cautious with denseBreakoverThreshold := some 1, denseCheckInterval := 1 }

/-- The stages are a slack column, a singleton, one of a search, one of its repetition, and those of
a dense block. -/
theorem stable_of_graded : ∃ r s t, Engine.Visited (.sparse r) ∧ r.options = blockwise ∧
    graded.Accepted ∧ r.Spacious graded ∧ 0 ≤ r.options.zeroTolerance ∧
    0 < r.options.relaxedPivotTolerance ∧ load graded r = .ok () s ∧
    factor .standard s = .ok () t ∧ t.rank = 6 ∧
    t.tallies = { slacks := 1, singletons := 1, searched := 0, relaxed := 1, denseSize := 2 } ∧
    Stable .standard s t := by
  obtain ⟨r, s, visited, options, loaded, check⟩ := @exists_loaded blockwise graded 0 0
    (fun s => endedWith (fun _ (t : SparseFactorization ℚ) => t.rank == 6 && decide (t.tallies =
      { slacks := 1, singletons := 1, searched := 0, relaxed := 1, denseSize := 2 }))
      (factor .standard s)) (by decide +kernel)
  obtain ⟨_, t, factored, made⟩ := exists_ok_of_check _ check
  rw [Bool.and_eq_true, beq_iff_eq, decide_eq_true_iff] at made
  obtain ⟨rank, tallies⟩ := made
  have accepted : graded.Accepted := BasisMatrix.accepted_of_isOk (by decide +kernel)
  have spacious : r.Spacious graded := spacious_of_spares (options ▸ by decide +kernel)
  have nonneg : 0 ≤ r.options.zeroTolerance := options ▸ by decide +kernel
  have positive : 0 < r.options.relaxedPivotTolerance := options ▸ by decide +kernel
  exact ⟨r, s, t, visited, options, accepted, spacious, nonneg, positive, loaded, factored, rank,
    tallies,
    (factor_stable visited accepted spacious nonneg positive loaded .standard).result factored⟩

/-- A basis whose lines overlap once they have to be moved. -/
def jumbled : BasisMatrix ℚ :=
  ⟨5, .ofLines [[(2, -2), (4, -2), (3, -1)], [(4, 3), (0, -1), (2, 2)], [(4, -1), (2, 8), (3, 2)],
    [(2, 2), (1, -2), (0, -4), (3, 2)], [(1, -2), (4, 3), (3, 4)]]⟩

/-- Only the largest entries of a column are taken, and lines have no bound on their spare
entries. -/
def uncompromising : Options ℚ :=
  { strictest with zeroTolerance := (Options.standard : Options ℚ).zeroTolerance }

/-- Without the bound on the spare entries, a multiplier may exceed one although each pivot is as
large as the maximum that is known of its column. -/
theorem not_stable_of_overlap : ∃ r s t entries, Engine.Visited (.sparse r) ∧
    r.options = uncompromising ∧ jumbled.Accepted ∧ 0 < r.options.zeroTolerance ∧
    0 < r.options.absolutePivotTolerance ∧ 0 < r.options.relaxedPivotTolerance ∧
    load jumbled r = .ok () s ∧ factor .standard s = .ok () t ∧
    t.counters.slacks + t.counters.singletons + t.counters.relaxed + t.counters.denseSize = 0 ∧
    (rulesOf s.options .standard).relativeTolerance = 1 ∧
    t.factors.lower.line 1 = .ok entries ∧ -3 / 2 ∈ entries.map Prod.snd ∧
    ¬Stable .standard s t := by
  obtain ⟨r, s, visited, options, loaded, check⟩ := @exists_loaded uncompromising jumbled 300 16
    (fun s => (rulesOf s.options .standard).relativeTolerance == 1 &&
      s.options.relaxedPivotTolerance == 1 &&
      endedWith (fun _ (t : SparseFactorization ℚ) => t.dimension == 5 && t.rank == 5 &&
        t.counters.slacks + t.counters.singletons + t.counters.relaxed + t.counters.denseSize == 0 &&
        (t.factors.lower.line 1).toOption.any fun entries => -3 / 2 ∈ entries.map Prod.snd)
        (factor .standard s)) (by decide +kernel)
  simp only [Bool.and_eq_true, beq_iff_eq] at check
  obtain ⟨⟨share, lower⟩, ends⟩ := check
  obtain ⟨_, t, factored, made⟩ := exists_ok_of_check _ ends
  simp only [Bool.and_eq_true, beq_iff_eq, decide_eq_true_eq, Option.any_eq_true] at made
  obtain ⟨⟨⟨dimension, rank⟩, counted⟩, entries, line, large⟩ := made
  have line := eq_ok_of_toOption line
  refine ⟨r, s, t, entries, visited, options, BasisMatrix.accepted_of_isOk (by decide +kernel),
    options ▸ by decide +kernel, options ▸ by decide +kernel, options ▸ by decide +kernel, loaded,
    factored, counted, share, line, large, fun stable => ?_⟩
  obtain ⟨i, j, x, multipliers, stores, stage⟩ := stable 1 (by omega)
  obtain ⟨_, line', rfl⟩ := stores.lower
  cases line.symm.trans line'
  obtain ⟨h, -, -, -, -, bounds⟩ := stage.searched 1 (by omega) (by omega)
  rw [share, lower] at bounds
  split at bounds <;> exact absurd (bounds.2 _ large) (by norm_num)

end SparseFactorization

end SimplexBasis
