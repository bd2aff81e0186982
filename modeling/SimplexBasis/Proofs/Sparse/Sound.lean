import SimplexBasis.Proofs.Sparse.Loading
import SimplexBasis.Proofs.Sparse.Standing

/-!
# Between calls

What holds of a sparse factorization between any two calls of a caller, whatever became of the calls
before: also when a basis did not fit, when a factorization was given up halfway, or when the basis
of the last announcement was never loaded.
-/

set_option linter.unusedSectionVars false

namespace SimplexBasis.SparseFactorization

variable {α : Type} [Scalar α] {s t : SparseFactorization α} {b : BasisMatrix α}
  {columns : List (List (Nat × α))} {v : SparseVector α} {x : SparseVector α × Nat}

/-- The invariant of the calls. A basis whose load is to be reported as failed may be announced
over, so that the status can be pending in any phase. -/
structure Sound (s : SparseFactorization α) : Prop where
  prepared : Prepared s
  owed : s.pending = none ∨ s.pending = some .outOfMemory
  loaded : s.phase = .loaded →
    Recorded s ∧ (s.pending = some .outOfMemory ∨ ∃ columns, Loaded s columns)
  standing : s.phase = .factorized → ∃ all, Standing s all

theorem Prepared.of_same (h : Prepared s) (workspace : t.workspace.Ready s.dimension)
    (active : t.active = s.active) (dimension : t.dimension = s.dimension) : Prepared t where
  workspace := dimension ▸ workspace
  sized := by rw [active, dimension]; exact h.sized
  addressable := dimension ▸ h.addressable

theorem sound_new (options : Options α) : Sound (.new options) where
  prepared := ⟨ready_blank 0, rfl, Nat.le_of_ble_eq_true rfl⟩
  owed := .inl rfl
  loaded phase := nomatch phase
  standing phase := nomatch phase

theorem Sound.allocate {B : Breach → Prop} (h : Sound s) (n lowerHint upperHint : Nat)
    (broken : ¬2 * n + 2 ≤ addressableWords → B .capacityOverflow) :
    EndsOr B (fun _ t => Sound t ∧ t.options = s.options) (fun _ _ => False)
      (allocate n lowerHint upperHint s) := by
  refine ((allocate_endsOr n lowerHint upperHint s broken).and
    (allocate_after n lowerHint upperHint s)).mono (fun _ => And.left) ?_ fun _ _ => And.left
  rintro _ t ⟨⟨prepared, options⟩, same⟩
  simp only [region, Prod.mk.injEq] at same
  obtain ⟨-, -, -, phase, pending⟩ := same
  exact ⟨⟨prepared, pending ▸ h.owed, by simp [phase], by simp [phase]⟩, options⟩

theorem Sound.load {B : Breach → Prop} (h : Sound s) (holds : b.Holds columns)
    (spacious : s.Spacious b)
    (broken : ¬s.Addressable b.dimension b.count → B .capacityOverflow) :
    EndsOr B (fun _ t => Sound t ∧ t.options = s.options ∧ t.dimension = b.dimension ∧
      t.phase = .loaded) (fun _ _ => False) (load b s) := by
  refine ((load_endsOr h.prepared holds spacious broken).and (load_after b s)).mono
    (fun _ => And.left) ?_ fun _ _ => And.left
  rintro _ t ⟨⟨prepared, options, dimension, phase, recorded, loaded⟩, -, -, -, pending, -⟩
  exact ⟨⟨prepared, pending, fun _ => ⟨recorded, loaded.symm.imp_right fun h => ⟨columns, h⟩⟩,
    by simp [phase]⟩, options, dimension, phase⟩

/-- How a factorization ends for a basis that is loaded, and for one that is not. -/
theorem Sound.factor [LawfulCounts α] (h : Sound s) (context : Context α) :
    Ends (fun _ t => Sound t ∧ t.dimension = s.dimension ∧ s.phase = .loaded ∧
        t.phase = .factorized ∧ t.etas = .empty)
      (fun status t => Sound t ∧ t.dimension = s.dimension ∧
        (s.phase = .loaded → Recorded t ∧ t.phase = .idle) ∧
        (status = .outOfMemory ∨
          status = .singular ∧ s.phase = .loaded ∧ t.rank < t.dimension ∨
          status = .invalidCall ∧ s.phase ≠ .loaded))
      (factor context s) := by
  have prepared := h.prepared
  rcases pending : s.pending with _ | status
  · by_cases phase : s.phase = .loaded
    · obtain ⟨-, full | ⟨columns, loaded⟩⟩ := h.loaded phase
      · cases pending.symm.trans full
      · refine EndsOr.ends (((factor_ends loaded context).or.and
          (factor_loaded_ends pending phase)).mono (fun _ => And.left) ?_ ?_)
        · rintro _ t ⟨⟨prepared, -, dimension, all, factorized⟩, same⟩
          simp only [region, Prod.mk.injEq] at same
          obtain ⟨-, -, -, phase', pending'⟩ := same
          exact ⟨⟨prepared, .inl pending', by simp [phase'], fun _ => ⟨all, factorized.standing⟩⟩,
            dimension, phase, phase', factorized.etas⟩
        · rintro status t ⟨⟨prepared, -, dimension, phase', found⟩, -, same⟩
          simp only [region, Prod.mk.injEq] at same
          obtain ⟨-, -, -, -, pending'⟩ := same
          refine ⟨⟨prepared, .inl pending', by simp [phase'], by simp [phase']⟩, dimension,
            fun _ => ⟨?_, phase'⟩, ?_⟩
          · rcases found with ⟨-, recorded⟩ | ⟨-, all, singular⟩
            · exact recorded
            · exact singular.recorded
          · rcases found with ⟨full, -⟩ | ⟨short, all, singular⟩
            · exact .inl full
            · refine .inr (.inl ⟨short, phase, ?_⟩)
              rw [rank, singular.factors, Factors.rank_ofStages]
              exact singular.short
    · rw [factor_of_unloaded pending phase]
      exact ⟨⟨⟨prepared.workspace, prepared.sized, prepared.addressable⟩, .inl pending,
        fun here => absurd here phase, fun here => (h.standing here).imp fun _ standing =>
          standing.of_same rfl rfl⟩, rfl, fun here => absurd here phase,
        .inr (.inr ⟨rfl, phase⟩)⟩
  · rw [factor_of_pending pending]
    obtain rfl : status = .outOfMemory := by
      rcases h.owed with none_ | full
      · cases pending.symm.trans none_
      · exact Option.some.inj (pending.symm.trans full)
    exact ⟨⟨⟨prepared.workspace, prepared.sized, prepared.addressable⟩, .inl rfl,
      fun here => Phase.noConfusion here, fun here => Phase.noConfusion here⟩, rfl,
      fun here => ⟨(h.loaded here).1, rfl⟩, .inl rfl⟩

theorem Sound.buildTransposes_ok (h : Sound s) : ∃ t, buildTransposes s = .ok () t := by
  by_cases phase : s.phase = .factorized
  · obtain ⟨all, standing⟩ := h.standing phase
    exact standing.buildTransposes_run.elim (fun same => ⟨_, same⟩) fun new => ⟨_, new⟩
  · unfold buildTransposes
    rw [get_bind, if_pos (.inl phase)]
    exact ⟨s, rfl⟩

theorem Sound.assign (h : Sound s) {sequence heading vs : Array Nat}
    (run : assign sequence heading s = .ok vs t) : Sound t := by
  by_cases phase : s.phase = .factorized
  · obtain ⟨all, standing⟩ := h.standing phase
    obtain rfl | rfl := standing.assign_result run
    · exact h
    · exact ⟨h.prepared.of_same h.prepared.workspace rfl rfl, h.owed,
        fun loaded => (nomatch phase.symm.trans loaded), fun _ => ⟨all, standing.transposed⟩⟩
  · rw [assign_of_idle phase run]
    exact h

theorem Sound.of_lasting (h : Sound s) (phase : s.phase = .factorized) (same : t.lasting = s.lasting)
    (ready : t.workspace.Ready s.dimension) : Sound t := by
  have phase' : t.phase = .factorized := (congrArg (·.phase) same).trans phase
  exact
    { prepared := h.prepared.of_same ready (congrArg (·.active) same) (dimension_of_lasting same)
      owed := by
        rw [show t.pending = s.pending from congrArg (·.pending) same]
        exact h.owed
      loaded := by simp [phase']
      standing := fun _ => (h.standing phase).imp fun _ standing =>
        standing.of_same (factors_of_lasting same) (dimension_of_lasting same) }

theorem factorized_of_solve {β : Type} {next : Unit → Action (SparseFactorization α) β} {y : β}
    (run : (checkSolvable v >>= next) s = .ok y t) : s.phase = .factorized := by
  obtain ⟨_, _, checked, -⟩ := ok_of_bind run
  exact (checkSolvable_result checked).2.1

theorem unchanged_of_refused {β : Type} {next : Unit → Action (SparseFactorization α) β}
    {status : Status} (rest : Steady (noted #[]) lasting (fun _ => False) (next ()))
    (run : (checkSolvable v >>= next) s = .error (.status status) t) : t = s := by
  rcases error_of_bind run with refused | ⟨_, u, -, failed⟩
  · unfold checkSolvable at refused
    rw [get_bind] at refused
    split at refused
    · cases refused
      rfl
    · split at refused
      · cases refused
        rfl
      · unfold Action.require at refused
        split at refused
        · exact nomatch refused
        · exact nomatch refused
  · exact (rest.fails failed).elim

/-- A solve leaves the invariant as it is, whether it is refused or not. -/
theorem Sound.ftran (h : Sound s) (v : SparseVector α) :
    EndsOr (fun _ => True) (fun _ t => Sound t) (fun _ t => t = s) (ftran v s) := by
  cases run : SparseFactorization.ftran v s with
  | ok x t =>
    have phase : s.phase = .factorized := factorized_of_solve run
    obtain ⟨all, standing⟩ := h.standing phase
    exact h.of_lasting phase (lasting_of_ftran run)
      (standing.ready_of_ftran h.prepared.workspace run)
  | error e t =>
    cases e with
    | status status => exact unchanged_of_refused (ftranChecked_steady v) run
    | breach b => trivial

theorem Sound.btran (h : Sound s) (v : SparseVector α) :
    EndsOr (fun _ => True) (fun _ t => Sound t) (fun _ t => t = s) (btran v s) := by
  cases run : SparseFactorization.btran v s with
  | ok x t =>
    have phase : s.phase = .factorized := factorized_of_solve run
    obtain ⟨all, standing⟩ := h.standing phase
    exact h.of_lasting phase (lasting_of_btran run)
      (standing.ready_of_btran h.prepared.workspace run)
  | error e t =>
    cases e with
    | status status => exact unchanged_of_refused (btranChecked_steady v) run
    | breach b => trivial

theorem Sound.replaceColumn (h : Sound s) (column : SparseVector α) (row : Nat) (pivot : α) :
    EndsOr (fun _ => True) (fun _ t => Sound t) (fun _ t => Sound t) (replaceColumn column row pivot s) := by
  by_cases phase : s.phase = .factorized
  · have changed : ∀ (etas : Etas α) (journal : Array Record),
        Sound { s with etas := etas, journal := journal } := fun etas journal =>
      ⟨h.prepared.of_same h.prepared.workspace rfl rfl, h.owed,
        fun loaded => (nomatch phase.symm.trans loaded),
        fun _ => (h.standing phase).imp fun _ standing => standing.of_same rfl rfl⟩
    by_cases inside : row < s.dimension
    · obtain ⟨record, run⟩ | ⟨record, run⟩ | ⟨-, -, -, run⟩ :=
        replaceColumn_run phase inside column pivot
      · rw [run]
        exact changed _ _
      · rw [run]
        exact changed _ _
      · rw [run]
        exact changed _ _
    · rw [replaceColumn_outside phase inside]
      trivial
  · unfold SparseFactorization.replaceColumn
    rw [get_bind, if_pos phase]
    exact h

theorem Sound.areaFactor (h : Sound s) (x : α) : Sound { s with areaFactor := x } where
  prepared := h.prepared.of_same h.prepared.workspace rfl rfl
  owed := h.owed
  loaded phase := ⟨(h.loaded phase).1, (h.loaded phase).2.imp_right fun ⟨columns, loaded⟩ =>
    ⟨columns, { loaded with
      working := by
        obtain ⟨v, stages, w, initial, chain, working⟩ := loaded.working
        exact ⟨v, stages, w, initial, chain, { working with
          contained := working.contained.congr rfl rfl }⟩ }⟩⟩
  standing phase := (h.standing phase).imp fun _ standing => standing.of_same rfl rfl

end SimplexBasis.SparseFactorization
