import Mathlib.Data.Fin.VecNotation
import SimplexBasis.Proofs.Sparse.AmpleAreas
import SimplexBasis.Proofs.Sparse.Calls
import SimplexBasis.Proofs.Sparse.SlackColumns
import SimplexBasis.Proofs.Sparse.TriangularPatterns

/-!
# Triangular bases

A basis whose rows and columns can be ordered so that its pattern is triangular is factorized by
singletons alone, without fill: every entry is a pivot or goes to one of the factors as it stands.
-/

set_option linter.unusedSectionVars false

namespace SimplexBasis

variable {α : Type} [Scalar α] {m i j : Nat} {x tolerance : α} {v w u : ActiveView α}
  {stages more : List (Stage α)} {kinds : Single → Prop}

/-! ### Without fill -/

theorem Factors.count_ofStages (stages : List (Stage α)) :
    (ofStages m stages).lower.count + (ofStages m stages).upper.count + stages.length =
      (stages.map fun st => st.lower.length + st.upper.length + 1).sum := by
  induction stages using List.reverseRecOn with
  | nil => rfl
  | append_singleton stages st ih =>
    rw [count_lower_concat, count_upper_concat, List.map_append, List.sum_append,
      List.length_append, ← ih]
    simp only [List.map_cons, List.map_nil, List.sum_singleton, List.length_singleton]
    omega

theorem Factors.count_lower_eq_zero (none : ∀ st ∈ stages, st.lower = []) :
    (ofStages m stages).lower.count = 0 := by
  rw [ofStages, Compressed.count_ofLines, List.length_eq_zero_iff, List.flatten_eq_nil_iff]
  simpa using none

theorem Singly.without_fill (chain : Singly kinds m v more w) (h : v.Consistent m [] []) :
    (Factors.ofStages m more).lower.count + (Factors.ofStages m more).upper.count + more.length +
      entryCount m w.cols = entryCount m v.cols := by
  rw [Factors.count_ofStages, ← chain.count h, Nat.add_comm]

theorem ActiveView.Consistent.row_le_entryCount {rowsDone colsDone : List Nat}
    (h : v.Consistent m rowsDone colsDone) (hi : i < m) :
    (v.rows i).length ≤ entryCount m v.cols := by
  have inside : ∀ j ∈ v.rows i, j < m := fun j hj => (h.rowRange i hi j hj).1
  have bound := sum_length_le_entryCount (h.distinctRows i hi) inside v.cols
  refine Nat.le_trans ?_ bound
  rw [← List.length_map (fun j => (v.cols j).length)]
  refine List.length_le_sum_of_one_le _ fun n hn => ?_
  obtain ⟨j, hj, rfl⟩ := List.mem_map.mp hn
  obtain ⟨x, entry⟩ := h.exists_value hi hj
  exact List.length_pos_of_mem entry

namespace SparseFactorization

variable {s t : SparseFactorization α}

/-- Areas with room for all entries of the basis never lack space for a singleton. -/
theorem Underway.not_lacking (there : Underway s m more w) (chain : Singly kinds m v more w)
    (h : v.Consistent m [] []) (lower : entryCount m v.cols ≤ s.capacity.lower)
    (upper : entryCount m v.cols ≤ s.capacity.upper) (hj : j < m) (member : (i, x) ∈ w.cols j) :
    ¬s.Lacking (w.stageAt i j x) := by
  have total := chain.without_fill h
  have consistent := there.consistent
  have key : i ∈ keys (w.cols j) := List.mem_map_of_mem member
  have hi := (consistent.colRange j hj i key).1
  have column := length_filter_key_ne (consistent.distinctCols j hj) key
  have listed := (consistent.agree i hi j hj).mpr key
  have row := length_filter_ne (consistent.distinctRows i hi) listed
  have columnFits := length_le_entryCount w.cols hj
  have rowFits := consistent.row_le_entryCount hi
  unfold Lacking
  rw [there.factors]
  simp only [ActiveView.stageAt, List.length_map]
  omega

/-- With all rows pivoted, there is nothing to search, and the entries of the factors are counted. -/
theorem Underway.finish_full (there : Underway s m stages w) (triangular : Triangular m stages)
    (full : stages.length = m) (seen : Nat) :
    ∃ t, (do
        let s ← get
        pivotLoop (s.dimension - s.rank) seen
        finishFactors : Action (SparseFactorization α) Unit) s = .ok () t ∧
      t.tallies = s.tallies ∧ t.counters.lowerCount = (Factors.ofStages m stages).lower.count ∧
      t.counters.upperCount = (Factors.ofStages m stages).upper.count := by
  have rank : s.rank = m := by
    rw [rank, there.factors, Factors.rank_ofStages, full]
  rw [get_bind, there.dimension, rank, Nat.sub_self, pivotLoop, pure_bind,
    finishFactors_run there.factors there.dimension triangular, if_pos (Nat.le_of_eq full.symm),
    there.factors]
  exact ⟨_, rfl, rfl, rfl, rfl⟩

/-- Once the slack columns are taken, the singletons of a triangular pattern are all that is left. -/
theorem Underway.factorizeLoaded_triangular {row col : Equiv.Perm (Fin m)}
    (there : Underway s m stages w) (chain : Singly (· = .column) m v stages w)
    (h : v.Consistent m [] []) (ordered : v.TriangularBy s.absoluteTolerance row col)
    (lower : entryCount m v.cols ≤ s.capacity.lower)
    (upper : entryCount m v.cols ≤ s.capacity.upper) :
    Ends (fun _ t => (∃ n, stages.length + n = m ∧
          t.tallies = { s.tallies with singletons := s.tallies.singletons + n }) ∧
        t.counters.lowerCount + t.counters.upperCount + m = entryCount m v.cols ∧
        (0 ≤ s.options.singletonBias → t.counters.lowerCount = 0))
      (fun _ _ => False) (SparseFactorization.factorizeLoaded s) := by
  have slacks : Singly (fun _ => True) m v stages w := chain.mono fun _ _ => trivial
  unfold SparseFactorization.factorizeLoaded
  rw [get_bind]
  refine (there.singletons.mono (fun _ _ => id) ?_).bind ?_
  · rintro e t ⟨-, rest, u, i, j, x, shed, hj, member, lacking⟩
    have areas := capacity_of_setup shed.setup
    exact shed.underway.not_lacking (slacks.trans shed.chain) h (areas ▸ lower) (areas ▸ upper) hj
      member lacking
  rintro _ t ⟨k₁, k₂, first, u, mid, second, w', order, shed, shed', columns, -⟩
  have singly := (slacks.trans (shed.chain.mono fun _ _ => trivial)).trans
    (shed'.chain.mono fun _ _ => trivial)
  have full := singly.length_of_idle h ordered columns
  obtain ⟨seen, q, logged, frame⟩ := shed'.underway.logCompressions s.compressions
  have done : Underway q m (stages ++ first ++ second) w' := by
    rw [frame]
    exact shed'.underway.of_setup rfl rfl rfl
  obtain ⟨r, finished, tallies, lowerCount, upperCount⟩ :=
    done.finish_full (singly.triangular h) full seen
  rw [bind_of_ok logged, finished]
  refine ⟨⟨first.length + second.length, ?_, ?_⟩, ?_, fun bias => ?_⟩
  · rw [← full, List.length_append, List.length_append, Nat.add_assoc]
  · have same : q.tallies = t.tallies := by
      rw [frame]
      rfl
    rw [tallies, same, shed'.tallies, shed.tallies, Nat.add_assoc]
  · have total := singly.without_fill h
    have empty := singly.entryCount_of_idle h ordered columns
    omega
  · rw [if_pos bias] at order
    obtain ⟨rfl, rfl, -, -, none⟩ := order
    -- Columns alone have taken every row, so the rows behind them take nothing.
    have taken := chain.trans shed.chain
    have whole := taken.length_of_idle h ordered none
    obtain rfl : second = [] := List.eq_nil_of_length_eq_zero (by
      rw [List.length_append] at full
      omega)
    rw [lowerCount, List.append_nil]
    exact Factors.count_lower_eq_zero (taken.lower_eq_nil (by simp))

end SparseFactorization

/-! ### From the basis to the factors -/

namespace BasisMatrix

variable {b : BasisMatrix α} {row col : Equiv.Perm (Fin b.dimension)}

/-- In the given orders of its rows and columns the matrix is stored upper triangular, and its whole
diagonal is stored, with no entry below the tolerance. -/
structure TriangularBy (b : BasisMatrix α) (tolerance : α) (row col : Equiv.Perm (Fin b.dimension)) :
    Prop where
  pattern : ∀ (k l : Fin b.dimension) (entries : List (Nat × α)), b.column (col l) = .ok entries →
    (row k : Nat) ∈ keys entries → k ≤ l
  diagonal : ∀ k : Fin b.dimension, ∃ entries x, b.column (col k) = .ok entries ∧
    ((row k : Nat), x) ∈ entries ∧ ¬Scalar.abs x < tolerance

theorem triangularBy_of_lower
    (pattern : ∀ (k l : Fin b.dimension) (entries : List (Nat × α)), b.column (col l) = .ok entries →
      (row k : Nat) ∈ keys entries → l ≤ k)
    (diagonal : ∀ k : Fin b.dimension, ∃ entries x, b.column (col k) = .ok entries ∧
      ((row k : Nat), x) ∈ entries ∧ ¬Scalar.abs x < tolerance) :
    b.TriangularBy tolerance (Fin.revPerm.trans row) (Fin.revPerm.trans col) where
  pattern k l entries read member := Fin.rev_le_rev.mp (pattern k.rev l.rev entries read member)
  diagonal k := diagonal k.rev

theorem triangularBy_iff : b.TriangularBy tolerance row col ↔
    (∀ k l : Fin b.dimension, (row k : Nat) ∈ keys ((b.column (col l)).toOption.getD []) → k ≤ l) ∧
    ∀ k : Fin b.dimension, ∃ e ∈ (b.column (col k)).toOption.getD [],
      e.1 = row k ∧ ¬Scalar.abs e.2 < tolerance := by
  constructor
  · refine fun h => ⟨fun k l member => ?_, fun k => ?_⟩
    · cases read : b.column (col l) with
      | ok entries =>
        rw [read] at member
        exact h.pattern k l entries read member
      | error e =>
        rw [read] at member
        cases member
    · obtain ⟨entries, x, read, member, large⟩ := h.diagonal k
      rw [read]
      exact ⟨_, member, rfl, large⟩
  · refine fun ⟨pattern, diagonal⟩ => ⟨fun k l entries read member => ?_, fun k => ?_⟩
    · have placed := pattern k l
      rw [read] at placed
      exact placed member
    · obtain ⟨⟨i, x⟩, member, rfl, large⟩ := diagonal k
      cases read : b.column (col k) with
      | ok entries =>
        rw [read] at member
        exact ⟨entries, x, rfl, member, large⟩
      | error e =>
        rw [read] at member
        cases member

instance : Decidable (b.TriangularBy tolerance row col) := decidable_of_iff' _ triangularBy_iff

theorem TriangularBy.loaded {columns : List (List (Nat × α))}
    (h : b.TriangularBy tolerance row col) (holds : b.Holds columns) :
    (ActiveView.loaded b.dimension columns).TriangularBy tolerance row col := by
  have read : ∀ l : Fin b.dimension, b.column (col l) = .ok (columns.getD (col l) []) := fun l => by
    have inside : (col l : Nat) < columns.length := (col l).isLt.trans_eq holds.length.symm
    exact holds.column_eq (by simp [inside])
  constructor
  · exact fun k l member => h.pattern k l _ (read l) member
  · intro k
    obtain ⟨entries, x, here, member, large⟩ := h.diagonal k
    cases (read k).symm.trans here
    exact ⟨x, member, large⟩

end BasisMatrix

namespace SparseFactorization

variable {s t r : SparseFactorization ℚ} {b : BasisMatrix ℚ} {columns : List (List (Nat × ℚ))}
  {row col : Equiv.Perm (Fin b.dimension)}

/-- Every pivot is a slack or a singleton, and every other entry of the basis is in one of the
factors. -/
structure WithoutFill (b : BasisMatrix ℚ) (t : SparseFactorization ℚ) : Prop where
  pivots : t.counters.slacks + t.counters.singletons = b.dimension
  searched : t.counters.searched = 0
  dense : t.counters.denseSize = 0
  entries : t.counters.lowerCount + t.counters.upperCount + b.dimension = b.count

theorem entryCount_loaded (holds : b.Holds columns) :
    entryCount b.dimension (ActiveView.loaded b.dimension columns).cols = b.count :=
  (entryCount_columns holds.length).trans (count_eq holds).symm

theorem load_ample (prepared : Prepared s) (holds : b.Holds columns) (ample : s.Ample b) :
    ∃ t stages w, load b s = .ok () t ∧ Slacked s b columns stages w t := by
  have loaded : Ends (fun _ t => ∃ stages w, Slacked s b columns stages w t) (fun _ _ => False)
      (load b s) := by
    refine load_by_room ample.stretch ample.addressable ample.words holds prepared
      (fun few => absurd few (Nat.not_lt_of_le ample.files_le)) fun u options areas _ here => ?_
    refine (here.slacked options areas).mono ?_ fun _ _ => id
    rintro _ t (slacked | ⟨-, e, q, -, more, w, i, j, x, slacked, hj, member, lacking⟩)
    · exact slacked
    · have capacity := (capacity_of_setup slacked.setup).trans areas
      have count := entryCount_loaded holds
      refine (slacked.underway.not_lacking slacked.chain here.underway.consistent ?_ ?_ hj member
        lacking).elim
      · exact capacity ▸ count ▸ ample.lower_le
      · exact capacity ▸ count ▸ ample.upper_le
  obtain ⟨_, t, run, stages, w, slacked⟩ := loaded.exists_ok
  exact ⟨t, stages, w, run, slacked⟩

theorem allocate_sizes {announced lowerHint upperHint : Nat}
    (run : allocate announced lowerHint upperHint s = .ok () t) :
    t.lowerHint = lowerHint ∧ t.upperHint = upperHint ∧ t.areaFactor = s.areaFactor := by
  obtain ⟨_, u, resized, rest⟩ := ok_of_bind run
  obtain ⟨_, -, resized⟩ := ok_of_lift_bind resized
  cases resized
  cases rest
  exact ⟨rfl, rfl, rfl⟩

theorem Slacked.factor_without_fill {stages : List (Stage ℚ)} {w : ActiveView ℚ}
    {q : SparseFactorization ℚ} (slacked : Slacked r b columns stages w q) (holds : b.Holds columns)
    (ample : r.Ample b) (triangular : b.TriangularBy r.options.absolutePivotTolerance row col)
    (context : Context ℚ) :
    Ends (fun _ t => WithoutFill b t ∧
        (0 ≤ r.options.singletonBias → t.counters.lowerCount = 0))
      (fun _ _ => False) (factor context q) := by
  have count := entryCount_loaded holds
  have tolerance : (q.begun context).absoluteTolerance = r.options.absolutePivotTolerance :=
    congrArg (·.absolutePivotTolerance) slacked.options
  have lower := ample.lower_le
  have upper := ample.upper_le
  rw [← slacked.areas, ← count] at lower upper
  have ends := (slacked.underway.begun context).factorizeLoaded_triangular slacked.chain
    slacked.consistent (tolerance ▸ triangular.loaded holds) lower upper
  rw [factor_of_loaded slacked.pending slacked.phase]
  refine Ends.conclude ends ?_ fun _ _ _ => id
  rintro t xs ⟨⟨n, total, tallies⟩, entries, columns⟩
  have found : t.tallies = ⟨stages.length, n, 0, 0, 0⟩ := by
    have before : (q.begun context).tallies = _ := slacked.tallies
    rw [tallies, before, Nat.zero_add]
  simp only [SparseFactorization.tallies, Tallies.mk.injEq] at found
  obtain ⟨slacks, singletons, searched, -, dense⟩ := found
  exact ⟨⟨by dsimp only; omega, searched, dense, count ▸ entries⟩,
    fun bias => columns (slacked.options ▸ bias)⟩

/-- A basis whose rows and columns can be ordered so that its pattern is triangular is factorized
by slack columns and singletons, without fill, whatever was done before. If columns are preferred,
nothing is added to the lower factor. -/
theorem factor_of_triangular {announced : Nat} (accepted : b.Accepted)
    (triangular : b.TriangularBy s.options.absolutePivotTolerance row col)
    (stretch : 0 ≤ s.options.stretch) (factor_ : 1 ≤ s.areaFactor)
    (allocated : allocate announced 0 0 s = .ok () r)
    (addressable : r.Addressable b.dimension b.count)
    (words : Scalar.truncNat (Scalar.ofNat b.count * (1 + s.options.stretch)) +
      b.dimension * s.options.pad < UInt64.size) (context : Context ℚ) :
    ∃ q t, load b r = .ok () q ∧ factor context q = .ok () t ∧ WithoutFill b t ∧
      (0 ≤ s.options.singletonBias → t.counters.lowerCount = 0) := by
  obtain ⟨columns, holds, -⟩ := accepted.holds
  obtain ⟨prepared, options⟩ := (allocate_ends _ _ _ _).result allocated
  obtain ⟨lowerHint, upperHint, same⟩ := allocate_sizes allocated
  rw [← options] at triangular stretch words ⊢
  have ample : r.Ample b := ⟨lowerHint, upperHint, same ▸ factor_, stretch, addressable, words⟩
  obtain ⟨q, stages, w, loaded, slacked⟩ := load_ample prepared holds ample
  obtain ⟨_, t, run, fill⟩ := (slacked.factor_without_fill holds ample triangular context).exists_ok
  exact ⟨q, t, loaded, run, fill⟩

/-- Column 1, then columns 3 and 0 and last column 2 have one entry that the ones before leave. -/
def shuffled : BasisMatrix ℚ :=
  ⟨4, .ofLines [[(0, 1), (3, 5)], [(2, 2)], [(2, 1), (1, 3), (3, -1)], [(2, 7), (0, 4)]]⟩

/-- The rows of the singletons in their order. -/
def shuffledRows : Equiv.Perm (Fin shuffled.dimension) :=
  (⟨![2, 0, 3, 1], ![1, 3, 0, 2], by decide, by decide⟩ : Equiv.Perm (Fin 4))

def shuffledCols : Equiv.Perm (Fin shuffled.dimension) :=
  (⟨![1, 3, 0, 2], ![2, 0, 3, 1], by decide, by decide⟩ : Equiv.Perm (Fin 4))

theorem factor_of_triangular_shuffled : ∃ r q t : SparseFactorization ℚ, shuffled.Accepted ∧
    shuffled.TriangularBy Options.standard.absolutePivotTolerance shuffledRows shuffledCols ∧
    allocate 4 0 0 (new .standard) = .ok () r ∧ r.Addressable 4 8 ∧ load shuffled r = .ok () q ∧
    factor .standard q = .ok () t ∧ WithoutFill shuffled t ∧ t.counters.lowerCount = 0 := by
  obtain ⟨_, r, allocated, check⟩ := @exists_ok_of_check _ _ (allocate 4 0 0)
    (new (.standard : Options ℚ)) (fun _ r => decide (r.Addressable 4 8)) (by decide +kernel)
  have accepted : shuffled.Accepted := BasisMatrix.accepted_of_isOk (by decide +kernel)
  have triangular : shuffled.TriangularBy Options.standard.absolutePivotTolerance shuffledRows
      shuffledCols := by decide +kernel
  have addressable := of_decide_eq_true check
  obtain ⟨q, t, loaded, run, fill, lower⟩ := factor_of_triangular accepted triangular
    (by decide +kernel) (by decide +kernel) allocated addressable (by decide +kernel) .standard
  exact ⟨r, q, t, accepted, triangular, allocated, addressable, loaded, run, fill,
    lower (by decide +kernel)⟩

end SparseFactorization

end SimplexBasis
