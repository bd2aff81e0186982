import SimplexBasis.Proofs.Recovery
import SimplexBasis.Proofs.Singularity

/-!
# Repairs

Without rounding and without dropping, slacks for the columns that have no pivot make a singular basis
nonsingular. A basis is therefore repaired at most once.
-/

set_option linter.unusedSectionVars false

namespace SimplexBasis

open SparseFactorization (entryOf NoZeros)

/-! ### The repaired matrix -/

section Matrices

variable {n i j k : Nat} {columns : List (List (Nat × ℚ))} {all : List (Stage ℚ)}
  {rows cols : List Nat} {slack : ℚ}

/-- Pivots that make up the matrix with the given columns, and the rows and columns without any. -/
structure Vacant (n : Nat) (columns : List (List (Nat × ℚ))) (all : List (Stage ℚ))
    (rows cols : List Nat) : Prop where
  triangular : Triangular n all
  pivots : ∀ st ∈ all, st.pivot ≠ 0
  accounts : Accounts 0 (entryOf columns) n all fun _ _ => 0
  rows : (all.map Stage.row ++ rows).Perm (List.range n)
  cols : (all.map Stage.col ++ cols).Perm (List.range n)

namespace Vacant

variable (h : Vacant n columns all rows cols)

include h

theorem length_eq : cols.length = rows.length := by
  have lengthRows := h.rows.length_eq
  have lengthCols := h.cols.length_eq
  rw [List.length_append, List.length_map] at lengthRows lengthCols
  omega

theorem distinct : ((cols.zip rows).map Prod.fst).Nodup := by
  rw [List.map_fst_zip h.length_eq.le]
  exact (h.cols.nodup_iff.mpr List.nodup_range).of_append_right

theorem entryOf_vacant (length : columns.length = n) (member : (j, k) ∈ cols.zip rows) :
    entryOf (slacked columns (cols.zip rows) slack) i j = if i = k then slack else 0 := by
  have inside := h.cols.subset (List.mem_append_right _ (List.of_mem_zip member).1)
  unfold entryOf
  rw [getD_slacked_of_mem h.distinct member (length ▸ List.mem_range.mp inside), valueAt_cons,
    valueAt_nil]
  simp only [eq_comm]

theorem entryOf_pivoted (length : columns.length = n) {st : Stage ℚ} (member : st ∈ all) :
    entryOf (slacked columns (cols.zip rows) slack) i st.col = entryOf columns i st.col := by
  have apart := List.disjoint_of_nodup_append (h.cols.nodup_iff.mpr List.nodup_range)
  have here := List.mem_map_of_mem (f := Stage.col) member
  have inside := h.cols.subset (List.mem_append_left _ here)
  unfold entryOf
  rw [getD_slacked_of_notMem ?_ (length ▸ List.mem_range.mp inside)]
  rintro ⟨j, i⟩ among rfl
  exact apart here (List.of_mem_zip among).1

section Kernel

variable {y : Fin n → ℚ} (length : columns.length = n) (nonzero : slack ≠ 0)
  (kernel : ∀ j : Fin n, ∑ i, y i * entryOf (slacked columns (cols.zip rows) slack) i j = 0)

include length nonzero kernel

/-- A slack column shows that a combination of rows that vanishes has no part in its row. -/
theorem eq_zero_of_vacant {i : Fin n} (member : i.val ∈ rows) : y i = 0 := by
  obtain ⟨t, ht, here⟩ := List.mem_iff_getElem.mp member
  have inside : t < cols.length := h.length_eq ▸ ht
  have pair : (cols[t], i.val) ∈ cols.zip rows :=
    List.mem_iff_getElem.mpr ⟨t, by simp [ht, inside], by simp [here]⟩
  have bound := List.mem_range.mp
    (h.cols.subset (List.mem_append_right _ (List.getElem_mem inside)))
  have sum := kernel ⟨cols[t], bound⟩
  simp only [h.entryOf_vacant length pair, ← Fin.ext_iff, mul_ite, mul_zero,
    Finset.sum_ite_eq', Finset.mem_univ, if_true] at sum
  exact (mul_eq_zero.mp sum).resolve_right nonzero

/-- The columns with pivots show the same for the rows with pivots, since the others have no part. -/
theorem eq_zero_of_pivoted {i : Fin n} (member : i.val ∈ all.map Stage.row) : y i = 0 := by
  have inside : ∀ k : Fin all.length, all[k].row < n := fun k =>
    h.triangular.row_lt (List.mem_map_of_mem (List.getElem_mem _))
  let place (k : Fin all.length) : Fin n := ⟨all[k].row, inside k⟩
  have injective : Function.Injective place := fun k l same => by
    have rows : (all.map Stage.row)[k.val]? = (all.map Stage.row)[l.val]? := by
      simpa [place] using same
    exact Fin.ext ((List.getElem?_inj (by simp) h.triangular.nodup_rows).mp rows)
  have vanishes : (fun k => y (place k)) = 0 := by
    refine Matrix.eq_zero_of_vecMul_eq_zero
      (det_pivots_ne_zero h.triangular h.pivots h.accounts) (funext fun l => ?_)
    have member : all[l] ∈ all := List.getElem_mem _
    have bound := h.triangular.col_lt (List.mem_map_of_mem member)
    refine (Fintype.sum_of_injective place injective _ _ (fun i outside => ?_) fun k => ?_).trans
      (kernel ⟨all[l].col, bound⟩)
    · have left : i.val ∈ rows := by
        refine (List.mem_append.mp (h.rows.mem_iff.mpr
          (List.mem_range.mpr i.isLt))).resolve_left fun done => outside ?_
        obtain ⟨k, hk, here⟩ := List.mem_iff_getElem.mp done
        rw [List.length_map] at hk
        exact ⟨⟨k, hk⟩, Fin.ext (by simpa [place] using here)⟩
      exact mul_eq_zero_of_left (h.eq_zero_of_vacant length nonzero kernel left) _
    · exact congrArg (y (place k) * ·) (h.entryOf_pivoted length member).symm
  obtain ⟨k, hk, here⟩ := List.mem_iff_getElem.mp member
  rw [List.length_map] at hk
  have eq : i = place ⟨k, hk⟩ := Fin.ext (by simpa [place] using here.symm)
  exact eq ▸ congrFun vanishes ⟨k, hk⟩

end Kernel

theorem det_ne_zero (length : columns.length = n) (nonzero : slack ≠ 0) :
    (Matrix.of fun i j : Fin n =>
      entryOf (slacked columns (cols.zip rows) slack) i j).det ≠ 0 := by
  intro singular
  obtain ⟨y, some_, kernel⟩ := Matrix.exists_vecMul_eq_zero_iff.mpr singular
  have kernel := fun j : Fin n => congrFun kernel j
  refine some_ (funext fun i => ?_)
  rcases List.mem_append.mp (h.rows.mem_iff.mpr (List.mem_range.mpr i.isLt)) with pivot | free
  · exact h.eq_zero_of_pivoted length nonzero kernel pivot
  · exact h.eq_zero_of_vacant length nonzero kernel free

omit h in
theorem det_eq_zero (h : Vacant n columns all rows cols) (short : all.length < n) :
    (Matrix.of fun i j : Fin n => entryOf columns i j).det = 0 := by
  by_contra regular
  have full := det_ne_zero_iff_rank.mp regular
  rw [rank_eq_length h.triangular h.pivots h.accounts] at full
  omega

end Vacant

theorem noZeros_slacked {pairs : List (Nat × Nat)} (entries : NoZeros columns)
    (nonzero : slack ≠ 0) : NoZeros (slacked columns pairs slack) := by
  intro column member e he
  rcases mem_slacked member with earlier | ⟨p, -, rfl⟩
  · exact entries column earlier e he
  · rw [List.mem_singleton.mp he]
    exact nonzero

end Matrices

/-! ### Repairs of engines -/

variable {b : BasisMatrix ℚ} {columns : List (List (Nat × ℚ))} {slack : ℚ}

/-- A nonsingular basis without stored zeros. -/
def Regular (b : BasisMatrix ℚ) : Prop :=
  b.matrix.det ≠ 0 ∧ ∃ columns, b.Holds columns ∧ NoZeros columns

theorem map_placed_range {xs : Array Nat} {n count : Nat} (perm : xs.toList.Perm (List.range n))
    (fits : count ≤ n) :
    (List.range count).map (Dense.placed xs (Array.range n)) = xs.toList.take count := by
  have size := size_of_perm perm
  refine List.ext_getElem (by simp [size, fits]) fun k hk _ => ?_
  have hk : k < n := by
    rw [List.length_map, List.length_range] at hk
    omega
  have inside := getD_lt_of_perm perm hk
  have stored : k < xs.size := size ▸ hk
  have read : xs.getD k 0 = xs[k] := by simp [Array.getD, stored]
  have range : ∀ i < n, (Array.range n).getD i 0 = i := fun i hi => by simp [Array.getD, hi]
  rw [List.getElem_map, List.getElem_range, List.getElem_take, Array.getElem_toList, ← read]
  exact range _ inside

namespace Engine

variable {e t : Engine ℚ}

theorem Deficient.exists_vacant (h : e.Deficient b) (exact_ : e.options.zeroTolerance = 0)
    (holds : b.Holds columns) (entries : NoZeros columns) : ∃ all rows cols,
      Vacant b.dimension columns all rows cols ∧ all.length < b.dimension ∧
      e.slackPairs = cols.zip rows := by
  cases e with
  | dense d =>
    obtain ⟨dimension, columns', x, holds', eliminated, short⟩ := h
    cases holds.unique holds'
    obtain ⟨rows, cols, pairs, permRows, permCols⟩ := eliminated.slackPairs_eq
    rw [← map_placed_range eliminated.shape.rows eliminated.rank] at permRows
    rw [← map_placed_range eliminated.shape.cols eliminated.rank] at permCols
    rw [← dimension]
    refine ⟨DenseFactorization.stages d.dimension x, rows, cols, ⟨eliminated.triangular,
      eliminated.pivots_ne_zero exact_, eliminated.accounts exact_, ?_, ?_⟩, by simpa using short,
      pairs⟩
    · rw [DenseFactorization.stages, Dense.Elimination.stagesOf, List.map_map]
      exact permRows
    · rw [DenseFactorization.stages, Dense.Elimination.stagesOf, List.map_map]
      exact permCols
  | sparse s =>
    obtain ⟨dimension, columns', all, holds', singular⟩ := h
    cases holds.unique holds'
    have exact_ : s.options.zeroTolerance = 0 := exact_
    have pivoted := singular.pivoted
    have triangular := pivoted.triangular
    rw [exact_] at pivoted
    rw [← dimension]
    exact ⟨all, _, _, ⟨triangular, pivoted.nonzero le_rfl entries, pivoted.exhaustive rfl entries,
      perm_append_leftOf triangular.nodup_rows fun _ => triangular.row_lt,
      perm_append_leftOf triangular.nodup_cols fun _ => triangular.col_lt⟩, singular.short,
      singular.slackPairs_eq⟩

/-- The basis is singular, and with slacks for the columns without a pivot it is not. -/
theorem Deficient.repairs (h : e.Deficient b) (exact_ : e.options.zeroTolerance = 0)
    (holds : b.Holds columns) (entries : NoZeros columns) (nonzero : slack ≠ 0) :
    b.matrix.det = 0 ∧ (e.slackPairs.map Prod.fst).Nodup ∧
      ∃ c, b.withSlacks e.slackPairs slack = .ok c ∧ c.dimension = b.dimension ∧ Regular c := by
  obtain ⟨all, rows, cols, vacant, short, pairs⟩ := h.exists_vacant exact_ holds entries
  have within := h.pairs.1
  have holds' := holds.slacked within slack
  rw [pairs] at within holds' ⊢
  refine ⟨?_, vacant.distinct, _, holds.withSlacks_eq within slack, rfl, ?_, _, holds',
    noZeros_slacked entries nonzero⟩
  · rw [holds.matrix_eq]
    exact vacant.det_eq_zero short
  · rw [holds'.matrix_eq]
    exact vacant.det_ne_zero holds.length nonzero

end Engine

namespace BasisFactorization

variable {f g : BasisFactorization ℚ} {trial trial' : Trial ℚ} {context : Context ℚ}
  {offset n : Nat} {failures : List Status}

/-- The engine drops nothing, and its sizes for bases of dimension `n` are words. -/
structure Exact (n : Nat) (e : Engine ℚ) : Prop where
  exact_ : e.options.zeroTolerance = 0
  sized : e.Sized n

theorem Exact.of_alike {e t : Engine ℚ} (h : Exact n e) (same : e.Alike t) : Exact n t :=
  ⟨same.options ▸ h.exact_, same.sized h.sized⟩

theorem Retry.repairs (retry : Retry context offset f trial g trial')
    (holds : trial.basis.Holds columns) (entries : NoZeros columns)
    (exact_ : Exact trial.basis.dimension f.engine) (nonzero : f.options.slackValue ≠ 0) :
    g.options = f.options ∧ f.engine.Alike g.engine ∧
      (trial' = { trial with last := .outOfMemory } ∨
        trial'.last = .singular ∧ trial.basis.matrix.det = 0 ∧
        trial'.basis.dimension = trial.basis.dimension ∧ Regular trial'.basis ∧
        ∃ pairs, trial'.replaced = trial.replaced ++ pairs ∧ (pairs.map Prod.fst).Nodup) := by
  have ends := Engine.attempt_ends holds exact_.sized context
  cases retry with
  | @enlarged e failed options engine =>
    obtain ⟨alike, -⟩ := ends.failure failed
    exact ⟨options, alike.trans (Engine.alike_of_plain engine), .inl rfl⟩
  | @repaired e labels basis failed options engine relabelled slacks =>
    obtain ⟨alike, -, ⟨wrong, -⟩ | ⟨-, deficient⟩⟩ := ends.failure failed
    · exact nomatch wrong
    · obtain ⟨singular, distinct, c, repaired, dimension, regular⟩ :=
        deficient.repairs (alike.options ▸ exact_.exact_) holds entries nonzero
      cases slacks.symm.trans repaired
      exact ⟨options, alike.trans (Engine.alike_of_plain engine),
        .inr ⟨rfl, singular, dimension, regular, _, rfl, distinct⟩⟩

theorem Retries.of_regular (retries : Retries context offset failures f trial g trial')
    (regular : Regular trial.basis) (exact_ : Exact trial.basis.dimension f.engine)
    (nonzero : f.options.slackValue ≠ 0) :
    trial'.replaced = trial.replaced ∧ ∀ status ∈ failures, status = .outOfMemory := by
  induction retries with
  | none => exact ⟨rfl, by simp⟩
  | @more failures f g h trial trial' trial'' first rest ih =>
    obtain ⟨det, columns, holds, entries⟩ := id regular
    obtain ⟨options, alike, rfl | ⟨-, singular, -⟩⟩ := first.repairs holds entries exact_ nonzero
    · obtain ⟨same, memory⟩ := ih regular (exact_.of_alike alike) (options ▸ nonzero)
      exact ⟨same, by simpa using memory⟩
    · exact absurd singular det

theorem Retries.repair_once (retries : Retries context offset failures f trial g trial')
    (holds : trial.basis.Holds columns) (entries : NoZeros columns) (fresh : trial.replaced = [])
    (exact_ : Exact trial.basis.dimension f.engine) (nonzero : f.options.slackValue ≠ 0) :
    (trial'.replaced.map Prod.fst).Nodup ∧ failures.count .singular ≤ 1 ∧
      failures.Pairwise fun earlier later => earlier = .singular → later = .outOfMemory := by
  induction retries with
  | none => simp [fresh]
  | @more failures f g h trial trial' trial'' first rest ih =>
    obtain ⟨options, alike, rfl | ⟨last, -, dimension, regular, pairs, replaced, distinct⟩⟩ :=
      first.repairs holds entries exact_ nonzero
    · obtain ⟨once, count, later⟩ := ih holds fresh (exact_.of_alike alike) (options ▸ nonzero)
      exact ⟨once, by simpa using count, List.pairwise_cons.mpr ⟨by simp, later⟩⟩
    · obtain ⟨same, memory⟩ := rest.of_regular regular
        (dimension.symm ▸ exact_.of_alike alike) (options ▸ nonzero)
      rw [fresh, List.nil_append] at replaced
      refine ⟨by rwa [same, replaced], ?_, List.pairwise_cons.mpr ⟨fun status member _ =>
        memory status member, List.pairwise_of_forall_mem_list ?_⟩⟩
      · have none_ : failures.count .singular = 0 :=
          List.count_eq_zero.mpr fun member => nomatch memory _ member
        rw [last, List.count_cons_self, none_]
      · exact fun status _ status' member _ => memory status' member

/-- What is reported of a factorization from `start` that repairs the basis once at most. -/
def RepairedOnce (context : Context ℚ) (b : BasisMatrix ℚ) (sequence : Array Nat) (offset : Nat)
    (start : BasisFactorization ℚ) (report : FactorReport) : Prop :=
  ∃ failures f trial, Retries context offset failures start ⟨b, sequence, [], .invalidCall⟩ f trial ∧
    failures.count .singular ≤ 1 ∧
    (failures.Pairwise fun earlier later => earlier = .singular → later = .outOfMemory) ∧
    match report.result with
    | .ok summary => summary.attempts = failures.length + 1 ∧
        (summary.replaced.map Prod.fst).Nodup
    | .error status => failures.length = max start.options.maxRetries 1 ∧
        failures.getLast? = some status

/-- Slacks for the columns without a pivot make every basis nonsingular that is found singular, so a
factorization repairs its basis once at most, and ends with the singular basis only if no attempt is
left. -/
theorem repairs_once (accepted : b.Accepted) (entries : b.NoZeros) (nonzero : slack ≠ 0) :
    (∀ (e g h t : Engine ℚ) (announced lowerHint upperHint : Nat) (context : Context ℚ),
      e.options.zeroTolerance = 0 →
      (e.isDense = false → e.options.SparesWithin b.dimension) →
      Engine.allocate announced lowerHint upperHint e = .ok () g → Engine.load b g = .ok () h →
      Engine.factor context h = .error (.status .singular) t →
      ∃ c, b.withSlacks t.slackPairs slack = .ok c ∧ c.dimension = b.dimension ∧
        c.matrix.det ≠ 0) ∧
    ∀ (f : BasisFactorization ℚ) (sequence heading : Array Nat) (offset : Nat)
      (context : Context ℚ), f.options.slackValue = slack →
      (f.engineFor b.dimension).options.zeroTolerance = 0 →
      (f.engineFor b.dimension).Sized b.dimension →
      sequence.size = b.dimension → heading.size = b.dimension →
      EndsOr Stalls
        (fun report _ =>
          RepairedOnce context b sequence offset ⟨f.options, f.engineFor b.dimension⟩ report)
        (fun _ _ => False) (factorize b sequence heading offset context f) := by
  obtain ⟨columns, holds, entries⟩ := accepted.exists_columns entries
  constructor
  · intro e g h t announced lowerHint upperHint context exact_ spares allocated loaded factored
    obtain ⟨same, ready⟩ := Engine.ready_of_load holds spares allocated loaded
    obtain ⟨alike, -, ⟨wrong, -⟩ | ⟨-, deficient⟩⟩ :=
      (ready.factor_ends holds context).failure factored
    · exact nomatch wrong
    · have tolerance : t.options.zeroTolerance = 0 := by
        rw [alike.options, same.options]
        exact exact_
      obtain ⟨-, -, c, repaired, dimension, regular, -⟩ :=
        deficient.repairs tolerance holds entries nonzero
      exact ⟨c, repaired, dimension, regular⟩
  · rintro f sequence heading offset context rfl exact_ sized size sizeHeading
    refine (factorize_ends holds size sizeHeading sized offset context).mono (fun _ => id) ?_
      fun _ _ => id
    rintro report g ⟨failures, f', trial, retries, outcome⟩
    obtain ⟨distinct, count, later⟩ :=
      retries.repair_once holds entries rfl ⟨exact_, sized⟩ nonzero
    have start : Tracks b sequence offset f.options.slackValue ⟨b, sequence, [], .invalidCall⟩ :=
      .first holds .invalidCall
    obtain ⟨-, -, -, failed⟩ := retries.tracks holds sized start
    refine ⟨failures, f', trial, retries, count, later, ?_⟩
    rcases outcome with ⟨-, succeeds⟩ | ⟨all, rfl, -⟩
    · rw [succeeds.result]
      exact ⟨Nat.add_comm 1 _, distinct⟩
    · exact ⟨all, (failed (by rintro rfl; rw [List.length_nil] at all; omega)).2⟩

/-- A basis with two proportional columns is repaired by one slack. -/
theorem repairs_proportional_once :
    (∃ e g h t c, Engine.allocate 2 0 0 e = .ok () g ∧ Engine.load proportional g = .ok () h ∧
      Engine.factor .standard h = .error (.status .singular) t ∧
      proportional.withSlacks t.slackPairs 1 = .ok c ∧ c.dimension = proportional.dimension ∧
      c.matrix.det ≠ 0) ∧
    ∃ report g, factorize proportional #[4, 5] #[0, 0] 10 .standard (.new patient) =
        .ok report g ∧
      RepairedOnce .standard proportional #[4, 5] 10
        ⟨patient, (new patient).engineFor proportional.dimension⟩ report := by
  have once := @repairs_once proportional 1 (BasisMatrix.accepted_of_isOk (by decide +kernel))
    (by decide +kernel) (by decide)
  constructor
  · obtain ⟨_, h, run, check⟩ := @exists_ok_of_check _ _ (do
        Engine.allocate 2 0 0
        Engine.load proportional : Action (Engine ℚ) Unit) (.sparse (.new patient))
      (fun _ h => stoppedBy (.status .singular) (fun _ => true) (Engine.factor .standard h))
      (by decide +kernel)
    obtain ⟨_, g, allocated, loaded⟩ := ok_of_bind run
    obtain ⟨t, factored, -⟩ := stoppedBy_iff.mp check
    obtain ⟨c, repaired⟩ := once.1 _ g h t 2 0 0 .standard rfl (fun _ => by decide +kernel)
      allocated loaded factored
    exact ⟨_, g, h, t, c, allocated, loaded, factored, repaired⟩
  · obtain ⟨report, g, run, -⟩ := @exists_ok_of_check _ _
      (factorize proportional #[4, 5] #[0, 0] 10 .standard) (new patient) (fun _ _ => true)
      (by decide +kernel)
    exact ⟨report, g, run, (once.2 (new patient) #[4, 5] #[0, 0] 10 .standard
      (by decide +kernel) rfl (by decide +kernel) rfl rfl).result run⟩

/-- The columns of a basis whose first column and the next make up the fifth, and whose lines
overlap once they have to be moved. -/
def dependent : List (List (Nat × ℚ)) :=
  [[(5, -2), (1, 2), (4, 4)], [(1, -2), (3, -2), (0, -2)], [(3, -1), (4, 4), (2, -2), (5, 1)],
    [(5, 4), (4, 4), (3, 4)], [(0, -2), (5, -2), (4, 4), (3, -2)], [(0, -2), (3, -2), (2, -2)]]

/-- Small areas, and a stretch that asks for more than a word. -/
def cramped : Options ℚ :=
  { SparseFactorization.boundless with initialAreaFactor := 41 / 568 }

/-- Without the bound on the spare entries, the repaired basis may be singular, and be found
singular. -/
theorem repairs_twice_of_overlap : ∃ e c e',
    Engine.attempt .standard ⟨6, .ofLines dependent⟩ (.sparse (.new cramped)) =
      .error (.status .singular) e ∧
    BasisMatrix.withSlacks ⟨6, .ofLines dependent⟩ e.slackPairs 1 = .ok c ∧ c.matrix.det = 0 ∧
    Engine.attempt .standard c e = .error (.status .singular) e' := by
  obtain ⟨e, first, check⟩ := stoppedBy_iff.mp (show stoppedBy (.status .singular)
    (fun e => e.slackPairs == [(2, 4)] && stoppedBy (.status .singular) (fun _ => true)
      (Engine.attempt .standard ⟨6, .ofLines (slacked dependent [(2, 4)] 1)⟩ e))
    (Engine.attempt .standard ⟨6, .ofLines dependent⟩ (.sparse (.new cramped))) = true by
      decide +kernel)
  obtain ⟨pairs, check⟩ := Bool.and_eq_true_iff.mp check
  obtain ⟨e', second, -⟩ := stoppedBy_iff.mp check
  have holds : BasisMatrix.Holds ⟨6, .ofLines dependent⟩ dependent :=
    ⟨rfl, rfl, by decide +kernel, by decide +kernel⟩
  have within : PairsWithin 6 [(2, 4)] := by simp [PairsWithin]
  refine ⟨e, _, e', first, beq_iff_eq.mp pairs ▸ holds.withSlacks_eq within 1, ?_, second⟩
  refine Matrix.exists_mulVec_eq_zero_iff.mp ⟨![1, 1, 0, 0, -1, 0], by decide +kernel, ?_⟩
  decide +kernel

end BasisFactorization

end SimplexBasis
