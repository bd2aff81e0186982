import SimplexBasis.Proofs.Sparse.DenseBlock
import SimplexBasis.Proofs.Sparse.PivotSearch

/-!
# The pivot loop

The loop pivots until every row has its pivot, the search finds nothing, or the rest is factorized
densely. `Split` describes the stages it leaves, and `Split.accounts` says what they make up.
-/

set_option linter.unusedSectionVars false

namespace SimplexBasis

/-- Counts are compared like numbers, if not exactly: a block that is found full has at most eight
times as many places as entries. -/
class LawfulCounts (α : Type) [Scalar α] : Prop where
  square_le : ∀ left entries : Nat, ¬SparseFactorization.fullness left * Scalar.ofNat entries ≤
    (Scalar.ofNat (left * left) : α) → left * left ≤ 8 * entries

/-- Whether the rest at the point is taken densely. -/
def Point.dense {α : Type} [Scalar α] (ρ : Rules α) (m : Nat) (p : Point α) : Bool :=
  match ρ.options.denseBreakoverThreshold with
  | none => false
  | some threshold =>
    let left := m - p.stages.length
    if p.stages.length % ρ.options.checkInterval ≠ 0 ∨ (left = 0 ∨ left ≤ threshold) ∨
        SparseFactorization.fullness left * Scalar.ofNat p.view.nonzeros ≤ (Scalar.ofNat (left * left) : α) then false
    else ((leftOf m (p.stages.map Stage.col)).filter fun j =>
      decide (0 < (p.view.cols j).length)).length == left

namespace SparseFactorization

variable {α : Type} [Scalar α] {s t : SparseFactorization α} {m : Nat} {v w : ActiveView α}
  {stages more all : List (Stage α)} {ρ : Rules α} {p q : Point α} {β : Type}

/-! ### The breakover -/

theorem fullness_le (left : Nat) : fullness (α := ℚ) left ≤ 4 := by
  unfold fullness
  split
  · norm_num
  · split
    · norm_num
    · split <;> norm_num

/-- Rational counts are compared exactly. -/
instance : LawfulCounts ℚ where
  square_le left entries full := by
    have scaled : fullness (α := ℚ) left * entries ≤ 4 * entries :=
      mul_le_mul_of_nonneg_right (fullness_le _) (Nat.cast_nonneg _)
    have bound : ((left * left : Nat) : ℚ) < 4 * entries := lt_of_lt_of_le (not_le.mp full) scaled
    have exact_ : left * left < 4 * entries := by exact_mod_cast bound
    omega

theorem At.denseBlockDue_eq (h : At ρ m p s) : s.denseBlockDue = .ok (p.dense ρ m) := by
  have lengths : ∀ j ∈ leftOf m (p.stages.map Stage.col),
      (do return decide (0 < (← s.active.cols.length j)) : Checked Bool) =
        .ok (decide (0 < (p.view.cols j).length)) := by
    intro j hj
    rw [h.working.active.cols.length_eq (mem_leftOf.mp hj).1]
    rfl
  have rank : s.rank = p.stages.length := by
    unfold rank
    rw [h.working.factors, Factors.rank_ofStages]
  have left : Factors.unpivoted s.factors.stageOfCol = leftOf m (p.stages.map Stage.col) := by
    rw [h.working.factors]
    exact Factors.unpivoted_eq _
  have threshold : s.options.denseBreakoverThreshold = ρ.options.denseBreakoverThreshold :=
    congrArg (·.denseBreakoverThreshold) h.options
  have interval : s.options.checkInterval = ρ.options.checkInterval :=
    congrArg (·.checkInterval) h.options
  unfold denseBlockDue Point.dense
  rw [threshold, interval, rank, h.working.dimension, h.working.active.nonzeros, left]
  cases ρ.options.denseBreakoverThreshold with
  | none => rfl
  | some threshold =>
    dsimp only
    split
    · rw [if_pos (.inl ‹_›)]
      rfl
    · split
      · rw [if_pos (.inr (.inl ‹_›))]
        rfl
      · split
        · rw [if_pos (.inr (.inr ‹_›))]
          rfl
        · rw [if_neg (by simp_all), checked_filterM lengths]
          rfl

theorem length_lt_of_dense (due : p.dense ρ m = true) : p.stages.length < m := by
  unfold Point.dense at due
  split at due
  · simp at due
  · dsimp only at due
    split at due
    · simp at due
    · rename_i full
      by_contra
      exact full (.inr (.inl (.inl (by omega))))

theorem At.small_of_dense [LawfulCounts α] (h : At ρ m p s) (due : p.dense ρ m = true) :
    (m - p.stages.length) * (m - p.stages.length) < UInt64.size := by
  unfold Point.dense at due
  split at due
  · simp at due
  · dsimp only at due
    split at due
    · simp at due
    · rename_i full
      have bound := LawfulCounts.square_le _ _ fun le => full (.inr (.inr le))
      have few := h.working.entryCount_le
      have counted := h.working.consistent.counted
      have words := h.working.addressable
      simp only [addressableWords] at words
      have : UInt64.size = 18446744073709551616 := rfl
      omega

/-! ### The stages of the loop -/

/-- The stages `all` begin with `front`; a chain of pivots leads from the view to another one, where
all rows have pivots, nothing is found, or the rest is taken densely. -/
def Split (s : SparseFactorization α) (m : Nat) (front : List (Stage α)) (v : ActiveView α)
    (all : List (Stage α)) : Prop :=
  ∃ more w, Pivoting s.options.zeroTolerance m front v more w ∧
    w.Consistent m ((front ++ more).map Stage.row) ((front ++ more).map Stage.col) ∧
    (all = front ++ more ∧ (m ≤ all.length ∨ Found s.rules m w none) ∨
      ∃ block, Blocked w (leftOf m ((front ++ more).map Stage.row))
          (leftOf m ((front ++ more).map Stage.col)) block ∧
        all = front ++ more ++ blockStages block (leftOf m ((front ++ more).map Stage.row))
          (leftOf m ((front ++ more).map Stage.col)) s.options.zeroTolerance)

/-- What the loop leaves. -/
def Looped (s : SparseFactorization α) (m : Nat) (stages : List (Stage α)) (v : ActiveView α)
    (t : SparseFactorization α) : Prop :=
  t.setup = s.setup ∧ t.workspace.Ready m ∧ t.active.colMax.size = m ∧
    ∃ all, t.factors = Factors.ofStages m all ∧ Split s m stages v all

theorem Split.prepend (chain : Pivoting s.options.zeroTolerance m stages v more w)
    (setup : t.setup = s.setup) (h : Split t m (stages ++ more) w all) :
    Split s m stages v all := by
  obtain ⟨rest, u, chain', consistent, ending⟩ := h
  rw [options_of_setup setup, rules_of_setup setup] at *
  rw [List.append_assoc] at consistent ending
  exact ⟨more ++ rest, u, chain.trans chain', consistent, ending⟩

/-! ### The loop -/

theorem Underway.logCompressions (h : Underway s m stages v) (seen : Nat) :
    ∃ seen' t, SparseFactorization.logCompressions seen s = .ok seen' t ∧
      t = { s with journal := t.journal } := by
  obtain ⟨order, arranged⟩ := h.active.cols.arranged
  unfold SparseFactorization.logCompressions
  rw [get_bind]
  split
  · rw [arranged.freeSpace_eq, lift_ok_bind, bind_of_ok (log_run _ _)]
    exact ⟨_, _, rfl, rfl⟩
  · exact ⟨_, _, rfl, rfl⟩

theorem logCompressions_leads {next : Nat → Action (SparseFactorization α) β}
    {rest : Action (SparseFactorization α) β} (seen : Nat)
    (all : ∀ seen, Leads ρ m p (next seen) q rest) :
    Leads ρ m p (logCompressions seen >>= next) q rest := by
  refine .any (fun s here => ?_) all (all 0).onward
  obtain ⟨seen', t, logged, frame⟩ := here.working.underway.logCompressions seen
  have there : At ρ m p t := by
    rw [frame]
    exact ⟨here.working.of_setup rfl rfl rfl rfl, here.rules, here.tallies⟩
  exact ⟨seen', t, there, by rw [frame]; rfl, bind_of_ok logged⟩

theorem logCompressions_result {seen seen' : Nat} (run : logCompressions seen s = .ok seen' t) :
    ∃ xs, t = { s with journal := xs } := by
  unfold logCompressions at run
  rw [get_bind] at run
  split at run
  · obtain ⟨free, -, run⟩ := ok_of_lift_bind run
    rw [bind_of_ok (log_run _ _)] at run
    cases run
    exact ⟨_, rfl⟩
  · cases run
    exact ⟨_, rfl⟩

/-- How the loop ends at a point: it stops, or the rest is taken densely. A search that finds
nothing leaves no row set aside. -/
def Closing (ρ : Rules α) (m : Nat) (q : Point α) (rest : Action (SparseFactorization α) Unit) :
    Prop :=
  rest = pure () ∧ (q.Fits m → m ≤ q.stages.length ∨
      Found ρ m q.view none ∧ (q.view.AsideFilled m → q.view.rowLists (m + 1) = [])) ∨
    rest = factorizeBlock ∧ q.dense ρ m = true

theorem pivotLoop_first (remaining seen : Nat) : Leads ρ m p (pivotLoop (remaining + 1) seen) p
    (if p.dense ρ m then factorizeBlock else do
      match ← findPivot with
      | none => pure ()
      | some (i, j) =>
        pivotOn i j
        let seen ← logCompressions seen
        pivotLoop remaining seen) := .here fun s here => by
  rewrite [pivotLoop, get_bind, here.denseBlockDue_eq, lift_ok_bind]
  rfl

theorem pivotLoop_leads {remaining : Nat} (enough : m ≤ p.stages.length + remaining) :
    ∃ q rest, (∀ seen, Leads ρ m p (pivotLoop remaining seen) q rest) ∧ Closing ρ m q rest := by
  induction remaining generalizing p with
  | zero => exact ⟨p, pure (), fun _ => .refl _, .inl ⟨rfl, fun _ => .inl enough⟩⟩
  | succ remaining ih =>
    by_cases fits : p.Fits m
    · have first := pivotLoop_first (ρ := ρ) (m := m) (p := p) remaining
      by_cases due : p.dense ρ m = true
      · exact ⟨p, factorizeBlock, fun seen => (first seen).trans (by rw [if_pos due]; exact .refl _),
          .inr ⟨rfl, due⟩⟩
      · obtain ⟨found, q, search, fits', result, empty⟩ := @findPivot_passes _ _ m ρ p fits
        rcases found with _ | ⟨i, j⟩
        · refine ⟨q, pure (), fun seen => (first seen).trans ?_,
            .inl ⟨rfl, fun _ => .inr ⟨result.of_same search.same.symm, empty rfl⟩⟩⟩
          rw [if_neg due]
          exact search.leads.andThen (.refl _)
        · obtain ⟨hj, key⟩ := result
          rw [← search.same.cols] at key
          obtain ⟨⟨i, x⟩, member, rfl⟩ := List.mem_map.mp key
          obtain ⟨r, rest, final, closing⟩ :=
            @ih (q.pivoted ρ.options.zeroTolerance i j x) (by
              change _ ≤ (q.stages ++ [_]).length + _
              rw [List.length_append, List.length_singleton, search.stages]
              omega)
          refine ⟨r, rest, fun seen => (first seen).trans ?_, closing⟩
          rw [if_neg due]
          exact search.leads.andThen ((pivotOn_leads fits' hj member).andThen
            (logCompressions_leads seen final))
    · exact ⟨p, pure (), fun _ => .of_not_fits fits, .inl ⟨rfl, fun fits' => (fits fits').elim⟩⟩

theorem Closing.ends [LawfulCounts α] {rest : Action (SparseFactorization α) Unit}
    (h : Closing ρ m q rest) (there : At ρ m q t) (triangular : Triangular m q.stages) :
    Ends (fun _ u => Looped t m q.stages q.view u) (Exhausted t m q.stages) (rest t) := by
  have consistent := there.working.consistent
  obtain ⟨rfl, stop⟩ | ⟨rfl, due⟩ := h
  · exact ⟨rfl, there.working.workspace,
      (congrArg Array.size there.working.active.colMax).trans consistent.sized, q.stages,
      there.working.factors, [], q.view, .start, by simpa using consistent,
      .inl ⟨by simp, there.rules ▸ (stop consistent).imp_right And.left⟩⟩
  · refine (there.working.factorizeBlock triangular (there.small_of_dense due)).mono ?_
      fun _ _ stuck => stuck.exhausted_of_prefix List.prefix_rfl
    rintro _ u ⟨⟨setup, ready, size, block, blocked, factors⟩, -⟩
    exact ⟨setup, ready, size, _, factors, [], q.view, .start, by simpa using consistent,
      .inr ⟨block, by simpa using blocked, by simp⟩⟩

theorem Split.triangular {front : List (Stage α)} (h : Split s m front v all) (before : Triangular m front) :
    Triangular m all := by
  obtain ⟨more, w, chain, -, ⟨rfl, -⟩ | ⟨block, blocked, rfl⟩⟩ := h
  · exact chain.triangular before
  · exact blocked.triangular (chain.triangular before)

/-! ### What the stages make up -/

section Exact

variable {s : SparseFactorization ℚ} {v : ActiveView ℚ} {all : List (Stage ℚ)} {ρ : Rules ℚ}

/-- A rule that asks for no more than the maximum accepts the largest entry of a column, unless it
is zero or below the absolute tolerance. -/
theorem small_of_barren {rule : SearchRule ℚ} {j : Nat} (barren : Barren rule v j)
    (known : v.colMax.getD j 0 = largestOf (v.cols j)) (share : rule.relativeTolerance ≤ 1) :
    ∀ e ∈ v.cols j, e.2 = 0 ∨ |e.2| < rule.absoluteTolerance := by
  intro e he
  have below : |e.2| ≤ largestOf (v.cols j) := le_largestOf he
  unfold Barren at barren
  rw [known, beq_iff_eq] at barren
  rcases barren with zero | large | small
  · exact .inl (abs_nonpos_iff.mp (below.trans_eq zero))
  · exact .inr (below.trans_lt large)
  · rcases exists_largest (v.cols j) with zero | ⟨f, hf, attained⟩
    · exact .inl (abs_nonpos_iff.mp (below.trans_eq zero))
    · have bound := small f hf
      rw [scalar_abs, scalar_max, attained] at bound
      have scaled := mul_le_mul_of_nonneg_right share ((abs_nonneg f.2).trans_eq attained)
      rw [one_mul] at scaled
      exact .inr (below.trans_lt ((lt_max_iff.mp bound).resolve_right (not_lt.mpr scaled)))

theorem Found.small {rowsDone colsDone : List Nat} (h : Found ρ m v none)
    (consistent : v.Consistent m rowsDone colsDone) (known : v.MaxKnown m colsDone)
    (share : ρ.relativeTolerance ≤ 1) :
    ∀ j < m, ∀ e ∈ v.cols j, e.2 = 0 ∨ |e.2| < ρ.options.zeroTolerance := by
  intro j hj e he
  rcases h with none_ | barren
  · have counted := consistent.counted
    have few := length_le_entryCount v.cols hj
    have some := List.length_pos_of_mem he
    omega
  · have free : j ∉ colsDone := fun done => by simp [consistent.col_done hj done] at he
    rcases barren j hj with barren | empty
    · refine small_of_barren barren (known j hj free) ?_ e he
      change Scalar.min _ _ ≤ (1 : ℚ)
      rw [scalar_min]
      exact (min_le_right _ _).trans share
    · simp [empty] at he

theorem Found.columns_empty {rowsDone colsDone : List Nat} (h : Found s.rules m v none)
    (consistent : v.Consistent m rowsDone colsDone) (nonzero : v.Nonzero m)
    (known : v.MaxKnown m colsDone) (exact_ : s.options.zeroTolerance = 0)
    (share : s.relativeTolerance ≤ 1) : ∀ j < m, v.cols j = [] := by
  intro j hj
  refine List.eq_nil_iff_forall_not_mem.mpr fun e he => ?_
  rcases h.small consistent known (show s.rules.relativeTolerance ≤ 1 from share) j hj e he with
    zero | small
  · exact nonzero j hj e he zero
  · exact not_lt.mpr (abs_nonneg e.2) (small.trans_eq exact_)

namespace Split

variable {front : List (Stage ℚ)}

theorem nonzero (h : Split s m front v all) (nonneg : 0 ≤ s.options.zeroTolerance) (entries : v.Nonzero m)
    (pivots : ∀ st ∈ front, st.pivot ≠ 0) : ∀ st ∈ all, st.pivot ≠ 0 := by
  obtain ⟨more, w, chain, -, ending⟩ := h
  have pivoted := (chain.nonzero nonneg entries).2
  have through : ∀ st ∈ front ++ more, st.pivot ≠ 0 := fun st hst =>
    (List.mem_append.mp hst).elim (pivots st) (pivoted st)
  rcases ending with ⟨rfl, -⟩ | ⟨block, blocked, rfl⟩
  · exact through
  · intro st hst
    rcases List.mem_append.mp hst with first | last
    · exact through st first
    · exact blocked.pivots_ne_zero nonneg st last

theorem accounts {B : Nat → Nat → ℚ} (h : Split s m front v all) (before : Triangular m front)
    (nonneg : 0 ≤ s.options.zeroTolerance) (pivots : ∀ st ∈ all, st.pivot ≠ 0)
    (balance : Accounts s.options.zeroTolerance B m front v.value) (full : m ≤ all.length) :
    Accounts s.options.zeroTolerance B m all fun _ _ => 0 := by
  obtain ⟨more, w, chain, consistent, ⟨rfl, -⟩ | ⟨block, blocked, rfl⟩⟩ := h
  · have pivoted := chain.triangular before
    refine (chain.accounts nonneg (fun st hst => pivots st (List.mem_append_right _ hst))
      balance).of_eq fun i hi j hj => ?_
    exact consistent.value_of_row_done hj (pivoted.mem_rows_of_full full hi)
  · have half := chain.accounts nonneg (fun st hst => pivots st (by simp [hst])) balance
    exact blocked.accounts (chain.triangular before) consistent nonneg half (.inl full)

/-- With the tolerance zero, the stages make up the matrix wherever the pivots end. -/
theorem accounts_exact {B : Nat → Nat → ℚ} (h : Split s m front v all)
    (before : Triangular m front) (exact_ : s.options.zeroTolerance = 0)
    (share : s.relativeTolerance ≤ 1) (entries : v.Nonzero m)
    (known : v.MaxKnown m (front.map Stage.col))
    (balance : Accounts s.options.zeroTolerance B m front v.value) :
    Accounts s.options.zeroTolerance B m all fun _ _ => 0 := by
  have nonneg : 0 ≤ s.options.zeroTolerance := by rw [exact_]
  obtain ⟨more, w, chain, consistent, ending⟩ := h
  obtain ⟨left, pivoted⟩ := chain.nonzero nonneg entries
  have half := chain.accounts nonneg pivoted balance
  rcases ending with ⟨rfl, full | none_⟩ | ⟨block, blocked, rfl⟩
  · exact half.of_eq fun i hi j hj => consistent.value_of_row_done hj
      ((chain.triangular before).mem_rows_of_full full hi)
  · have empty := none_.columns_empty consistent left (chain.maxKnown known) exact_ share
    exact half.of_eq fun i hi j hj => by rw [ActiveView.value, empty j hj, valueAt_nil]
  · exact blocked.accounts (chain.triangular before) consistent nonneg half (.inr exact_)

end Split

end Exact

end SparseFactorization

end SimplexBasis
